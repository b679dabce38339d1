import Rant.Lib.Endian
import Rant.Transport.Writer
/-!
# Datagrams

Submessages one behind the other, each as long as its own header says. What was built is read
back in order (`submsgs_encode`). Whatever arrives is read inside its bytes, and a datagram cut
short loses messages at its end alone (`submsgs_cut`).
-/

namespace Rant.Transport

open Rant.Lib

/-- A submessage of either direction. -/
inductive Packet
  | lane (m : Submsg)
  | nack (m : NackMsg)

/-! ## The builders -/

/-- A type byte and the flag that goes with `on`. -/
def flagged (type flag : UInt8) (on : Bool) : UInt8 := if on then type ||| flag else type

/-- `i_rant_wire_mk_data`, and the emit's `RANT_F_ACKREQ`. -/
def wireMkData (index : Nat) (m : DataMsg) : Bytes :=
  if m.count = 1 then                           -- frag 0, count 1 and len are implied
    flagged 0x09 0x40 m.ackReq ::
      (writeFields [(2, index), (8, m.seqno), (2, m.payload.length)] ++ m.payload)
  else
    flagged 0x01 0x40 m.ackReq ::
      (writeFields [(2, index), (8, m.seqno), (2, m.frag), (2, m.count), (4, m.sampleLen),
        (2, m.payload.length)] ++ m.payload)

/-- `i_rant_wire_mk_shm`, and the emit's `RANT_F_ACKREQ`. -/
def wireMkShm (index : Nat) (m : ShmMsg) : Bytes :=
  flagged 0x21 0x40 m.ackReq ::
    (writeFields [(2, index), (8, m.base), (2, m.count)] ++ m.desc)

/-- `i_rant_wire_mk_hb`. -/
def wireMkHb (index : Nat) (m : HbMsg) : Bytes :=
  2 :: (writeFields [(2, index), (8, m.first), (8, m.last), (4, m.count)] ++ [])

/-- `i_rant_wire_mk_nack`. -/
def wireMkNack (index : Nat) (m : NackMsg) : Bytes :=
  flagged 0x03 0x10 m.unpos ::
    (writeFields [(2, index), (8, m.base), (2, m.nbits), (4, m.bitmap.toNat), (4, m.epoch)] ++ [])

def Packet.encode (index : Nat) : Packet → Bytes
  | .lane (.data m) => wireMkData index m
  | .lane (.shm m) => wireMkShm index m
  | .lane (.hb m) => wireMkHb index m
  | .nack m => wireMkNack index m

/-- The fields are as wide as the wire's, and a single fragment is its whole sample. -/
def Packet.Fits : Packet → Prop
  | .lane (.data m) => m.seqno < 2 ^ 64 ∧ m.frag < 2 ^ 16 ∧ m.count < 2 ^ 16 ∧
      m.sampleLen < 2 ^ 32 ∧ m.payload.length < 2 ^ 16 ∧
      (m.count = 1 → m.frag = 0 ∧ m.sampleLen = m.payload.length)
  | .lane (.shm m) => m.base < 2 ^ 64 ∧ m.count < 2 ^ 16 ∧ m.desc.length = shmDescBytes
  | .lane (.hb m) => m.first < 2 ^ 64 ∧ m.last < 2 ^ 64 ∧ m.count < 2 ^ 32
  | .nack m => m.base < 2 ^ 64 ∧ m.nbits < 2 ^ 16 ∧ m.epoch < 2 ^ 32

/-! ## The reader -/

/-- What a first byte stands for. -/
inductive Form
  | shm
  | single
  | multi
  | hb
  | nack

/-- The switch on `RANT_MSG_MASK` and the flags of a DATA, `none` for an unknown type. -/
def formOf (b0 : Nat) : Option Form :=
  if b0 % 8 = 1 then
    if b0.testBit 5 then some .shm else if b0.testBit 3 then some .single else some .multi
  else if b0 % 8 = 2 then some .hb
  else if b0 % 8 = 3 then some .nack
  else none

/-- The fields behind the first byte, at the offsets `RANT_OFFSET_*`: each starts where the one
before it ends. -/
def Form.widths : Form → List Nat
  | .shm | .single => [2, 8, 2]
  | .multi => [2, 8, 2, 2, 4, 2]
  | .hb => [2, 8, 8, 4]
  | .nack => [2, 8, 2, 4, 4]

/-- `RANT_HEADER_DATA_SINGLE` and the others. -/
def Form.header (f : Form) : Nat := 1 + f.widths.sum

/-- The bytes behind the header, by its fields. -/
def Form.tail (v : Nat → Nat) : Form → Nat
  | .shm => shmDescBytes
  | .single => v 2
  | .multi => v 5
  | .hb | .nack => 0

/-- What `i_rant_reader_data`, `i_rant_reader_shm`, `i_rant_reader_hb` and
`i_rant_writer_nack` read. -/
def Form.packet (b0 : Nat) (v : Nat → Nat) (body : Bytes) : Form → Packet
  | .shm => .lane (.shm ⟨v 1, v 2, body, b0.testBit 6⟩)
  | .single => .lane (.data ⟨v 1, 0, 1, v 2, body, b0.testBit 6⟩)
  | .multi => .lane (.data ⟨v 1, v 2, v 3, v 4, body, b0.testBit 6⟩)
  | .hb => .lane (.hb ⟨v 1, v 2, v 3⟩)
  | .nack => .nack ⟨v 1, v 2, BitVec.ofNat 32 (v 3), v 4, b0.testBit 4⟩

/-- The submessage at the front with its length: `none` for a read outside the datagram,
`some none` where `i_rant_transport_on_datagram` drops the rest. -/
def front (d : Bytes) : Option (Option (Nat × Nat × Packet)) :=
  (readLe d 0 1).bind fun b0 =>
    match formOf b0 with
    | none => some none                         -- cannot resync
    | some f =>
      if d.length < f.header then some none
      else (readFields d 1 f.widths).bind fun vs =>
        let v := fun k => vs.getD k 0
        let sub := f.header + f.tail v
        if d.length < sub then some none        -- truncated
        else some (some (sub, v 0, f.packet b0 v ((d.drop f.header).take (f.tail v))))

/-- No read of a header is outside the datagram. -/
theorem front_ne_none {d : Bytes} (h : 3 ≤ d.length) : front d ≠ none := by
  obtain ⟨b0, h0⟩ := readLe_of_le (m := d) (i := 0) (n := 1) (by omega)
  unfold front
  rw [h0, Option.bind_some]
  split
  next => simp
  next f hf =>
    split_ifs with hlen
    · simp
    obtain ⟨vs, hvs⟩ := readFields_of_le (m := d) (i := 1) (l := f.widths) (Nat.not_lt.mp hlen)
    rw [hvs, Option.bind_some]
    dsimp only
    split_ifs <;> simp

/-- A submessage that was read lies in the datagram, and what follows it changes nothing. -/
theorem front_some {d : Bytes} {x : Nat × Nat × Packet} (h : front d = some (some x)) :
    3 ≤ x.1 ∧ x.1 ≤ d.length ∧ ∀ e, front (d ++ e) = some (some x) := by
  unfold front at h
  obtain ⟨b0, h0, h⟩ := Option.bind_eq_some_iff.mp h
  split at h
  next => cases h
  next f hf =>
    split_ifs at h with hlen
    · cases h
    obtain ⟨vs, hvs, h⟩ := Option.bind_eq_some_iff.mp h
    dsimp only at h
    split_ifs at h with htail
    · cases h
    cases h
    have hheader : f.header = 1 + f.widths.sum := rfl
    have hmin : 3 ≤ f.header := by cases f <;> decide
    refine ⟨Nat.le_add_right_of_le hmin, Nat.not_lt.mp htail, fun e => ?_⟩
    unfold front
    rw [readLe_append_left (by omega), h0, Option.bind_some, hf]
    dsimp only
    rw [if_neg (by rw [List.length_append]; omega), readFields_append_left (by omega), hvs,
      Option.bind_some, if_neg (by rw [List.length_append]; omega),
      List.drop_append_of_le_length (by omega),
      List.take_append_of_le_length (by rw [List.length_drop]; omega)]

/-- The loop of `i_rant_transport_on_datagram`: what it hands on, each submessage under its
index. -/
def submsgs (d : Bytes) : Option (List (Nat × Packet)) :=
  if d.length < 3 then some []
  else match _h : front d with
    | none => none
    | some none => some []
    | some (some x) => (submsgs (d.drop x.1)).map (x.2 :: ·)
termination_by d.length
decreasing_by
  have hx := front_some _h
  rw [List.length_drop]
  omega

theorem submsgs_front {d : Bytes} {x : Nat × Nat × Packet} (h : front d = some (some x)) :
    submsgs d = (submsgs (d.drop x.1)).map (x.2 :: ·) := by
  have hx := front_some h
  rw [submsgs, if_neg (by omega)]
  split <;> simp_all

theorem submsgs_total (d : Bytes) : ∃ ms, submsgs d = some ms := by
  fun_induction submsgs d with
  | case1 | case3 => exact ⟨[], rfl⟩
  | case2 d h3 hf => exact absurd hf (front_ne_none (by omega))
  | case4 d _ x _ ih =>
    obtain ⟨ms, hms⟩ := ih
    exact ⟨x.2 :: ms, by rw [hms]; rfl⟩

/-- **Cut short, a datagram loses messages at its end alone**: any bytes are read inside the
datagram, and what was read of them is read the same with more behind them. -/
theorem submsgs_cut (d e : Bytes) : ∃ ms ms', submsgs d = some ms ∧
    submsgs (d ++ e) = some (ms ++ ms') := by
  fun_induction submsgs d with
  | case1 | case3 => exact ⟨[], (submsgs_total _).imp fun _ h => ⟨rfl, h⟩⟩
  | case2 d h3 hf => exact absurd hf (front_ne_none (by omega))
  | case4 d _ x hf ih =>
    obtain ⟨ms, ms', hms, hmore⟩ := ih
    have hx := front_some hf
    refine ⟨x.2 :: ms, ms', by rw [hms]; rfl, ?_⟩
    rw [submsgs_front (hx.2.2 e), List.drop_append_of_le_length hx.2.1, hmore]
    rfl

/-! ## What was built -/

theorem front_form {b0 : UInt8} {f : Form} {fs : List (Nat × Nat)} {body : Bytes}
    (hb : formOf b0.toNat = some f) (hw : fs.map Prod.fst = f.widths)
    (hfs : ∀ x ∈ fs, x.2 < 256 ^ x.1)
    (ht : (f.tail fun k => (fs.map Prod.snd).getD k 0) = body.length) :
    front (b0 :: (writeFields fs ++ body)) = some (some
      ((b0 :: (writeFields fs ++ body)).length, (fs.map Prod.snd).getD 0 0,
        f.packet b0.toNat (fun k => (fs.map Prod.snd).getD k 0) body)) := by
  have hb0 : readLe (b0 :: (writeFields fs ++ body)) 0 1 = some b0.toNat := by simp [readLe]
  have hread := readFields_field body (p := [b0]) (i := 1) rfl hfs
  have hheader : f.header = (writeFields fs).length + 1 := by
    simp [Form.header, hw, Nat.add_comm]
  have hlen : (b0 :: (writeFields fs ++ body)).length = f.header + body.length := by
    simp [hheader]
    omega
  unfold front
  rw [hb0, Option.bind_some, hb]
  dsimp only
  rw [if_neg (by omega), ← hw, ← List.singleton_append, hread, Option.bind_some, ht,
    List.singleton_append, if_neg (by omega), hlen, hheader]
  simp

/-- What was built is read back. -/
theorem front_encode {index : Nat} (hi : index < 2 ^ 16) : ∀ {p : Packet}, p.Fits →
    front (p.encode index) = some (some ((p.encode index).length, index, p))
  | .lane (.data ⟨seqno, frag, count, len, payload, ask⟩), h => by
    obtain ⟨hseqno, hfrag, hcount, hlen, hpayload, hsingle⟩ := h
    dsimp only at *
    by_cases hc : count = 1
    · obtain ⟨rfl, rfl⟩ := hsingle hc
      simp only [hc, Packet.encode, wireMkData, if_true]
      cases ask <;> exact front_form (f := .single) rfl rfl (by simp; omega) rfl
    · simp only [Packet.encode, wireMkData, if_neg hc]
      cases ask <;> exact front_form (f := .multi) rfl rfl (by simp; omega) rfl
  | .lane (.shm ⟨base, count, desc, ask⟩), ⟨hbase, hcount, hdesc⟩ => by
    simp only [Packet.encode, wireMkShm] at *
    cases ask <;> exact front_form (f := .shm) rfl rfl (by simp; omega) hdesc.symm
  | .lane (.hb ⟨first, last, count⟩), ⟨hfirst, hlast, hcount⟩ => by
    simp only [Packet.encode, wireMkHb] at *
    exact front_form (f := .hb) rfl rfl (by simp; omega) rfl
  | .nack ⟨base, nbits, bitmap, epoch, unpos⟩, ⟨hbase, hnbits, hepoch⟩ => by
    have hbitmap := bitmap.isLt
    simp only [Packet.encode, wireMkNack] at *
    cases unpos <;> refine (front_form (f := .nack) rfl rfl (by simp; omega) rfl).trans ?_ <;>
      simp [Form.packet, flagged] <;> rfl

/-- **A datagram is read as it was built**, in order and with nothing lost, whatever bytes
follow. -/
theorem submsgs_encode (ms : List (Nat × Packet)) (e : Bytes)
    (h : ∀ m ∈ ms, m.1 < 2 ^ 16 ∧ m.2.Fits) :
    submsgs (ms.flatMap (fun m => m.2.encode m.1) ++ e) = (submsgs e).map (ms ++ ·) := by
  induction ms with
  | nil => simp
  | cons m ms ih =>
    obtain ⟨hm, hms⟩ := List.forall_mem_cons.mp h
    rw [List.flatMap_cons, List.append_assoc,
      submsgs_front ((front_some (front_encode hm.1 hm.2)).2.2 _), List.drop_left, ih hms, Option.map_map]
    rfl

/-- A submessage of each form, some with their flag. -/
def eachForm : List (Nat × Packet) :=
  [(5, .lane (.data { seqno := 1, frag := 0, count := 1, sampleLen := 2, payload := [7, 8], ackReq := true })),
    (6, .lane (.data { seqno := 2, frag := 1, count := 3, sampleLen := 9, payload := [9], ackReq := false })),
    (7, .lane (.shm { base := 5, count := 2, desc := List.replicate 24 4, ackReq := false })),
    (5, .lane (.hb ⟨1, 2, 3⟩)),
    (8, .nack { base := 4, nbits := 3, bitmap := 5, epoch := 1, unpos := true })]

/-- They are read back, before a type there is none of. -/
theorem submsgs_encode_hb :
    submsgs (eachForm.flatMap (fun m => m.2.encode m.1) ++ [4, 0, 0]) = some eachForm := by
  refine (submsgs_encode eachForm [4, 0, 0] ?_).trans ?_
  · simp [eachForm, Packet.Fits, shmDescBytes]
  · rw [submsgs]
    rfl

end Rant.Transport
