import Rant.Discovery.Judges
/-!
# The datagram cut and stretched

What the decoder says of every length a datagram may arrive with. A datagram that decodes
carries its own length (`decode_ok`), so one cut inside the overlay is told from one cut before
it or one stretched past its end, and a mark moves two bits of one byte.
-/

namespace Rant.Discovery

open Rant.Lib
open Rant.Transport (Bytes)

/-! ## The fields of the head -/

/-- A field is read as before when bytes follow, -/
theorem leAt_append {d : Bytes} (e : Bytes) {i n : Nat} (h : i + n ≤ d.length) :
    leAt (d ++ e) i n = leAt d i n := by
  unfold leAt
  rw [readLe_append_left h]

/-- and when the bytes past it are cut. -/
theorem leAt_take {d : Bytes} {m i n : Nat} (h : i + n ≤ m) (hm : m ≤ d.length) :
    leAt (d.take m) i n = leAt d i n := by
  have hlen : (d.take m).length = m := by rw [List.length_take, Nat.min_eq_left hm]
  have happ := leAt_append (d := d.take m) (d.drop m) (i := i) (n := n) (by omega)
  rw [List.take_append_drop] at happ
  exact happ.symm

/-- The fields a datagram of 37 bytes or more and its name give. -/
def headWire (d : Bytes) : Wire where
  wire := leAt d 4 1
  flags := leAt d 5 1
  domain := leAt d 6 2
  uuid := (d.drop 8).take 16
  version := leAt d 24 4
  changedAgoMs := leAt d 28 4
  overlayLen := leAt d 32 2
  dataPort := leAt d 34 2
  name := (d.drop fixedLen).take (leAt d 36 1)

/-- A datagram that opens as one of this wire, as far as its name. -/
structure Headed (d : Bytes) : Prop where
  room : fixedLen + leAt d 36 1 ≤ d.length
  magic : d.take 4 = magic
  wire : leAt d 4 1 = wireVersion
  name : leAt d 36 1 ≤ nodeNameMax

/-- Past the name, the flags and two lengths decide. -/
theorem Headed.decode {d : Bytes} (h : Headed d) : decode d =
    (if !hasFlag (headWire d).flags flagBlob then
      if (headWire d).overlayLen ≠ 0 ∨ d.length ≠ fixedLen + leAt d 36 1 then (.malformed, headWire d)
      else (.ok, headWire d)
    else if d.length < fixedLen + leAt d 36 1 + (headWire d).overlayLen then (.cut, headWire d)
    else if d.length > fixedLen + leAt d 36 1 + (headWire d).overlayLen then (.malformed, headWire d)
    else (.ok, { headWire d with
      overlay := (d.drop (fixedLen + leAt d 36 1)).take (headWire d).overlayLen })) := by
  have hroom := h.room
  have hname := h.name
  rw [show fixedLen = 37 from rfl] at hroom
  unfold Discovery.decode
  rw [if_neg (fun hc => hc.elim (fun hc => by omega) fun hc => hc h.magic)]
  dsimp only
  rw [if_neg (fun hc => hc h.wire), if_neg (by rw [show fixedLen = 37 from rfl]; omega),
    if_neg (fun hc => hc.elim (fun hc => by omega) fun hc => by
      rw [show fixedLen = 37 from rfl] at hc
      omega)]
  rfl

/-- Two datagrams that share a head give the same fields. -/
theorem headWire_append {d : Bytes} (e : Bytes) (h : fixedLen + leAt d 36 1 ≤ d.length) :
    headWire (d ++ e) = headWire d ∧ leAt (d ++ e) 36 1 = leAt d 36 1 := by
  rw [show fixedLen = 37 from rfl] at h
  have hnl := leAt_append e (d := d) (i := 36) (n := 1) (by omega)
  refine ⟨?_, hnl⟩
  unfold headWire
  rw [hnl, leAt_append e (by omega), leAt_append e (by omega), leAt_append e (by omega),
    leAt_append e (by omega), leAt_append e (by omega), leAt_append e (by omega),
    leAt_append e (by omega), List.drop_append_of_le_length (by omega),
    List.take_append_of_le_length (by rw [List.length_drop]; omega), show fixedLen = 37 from rfl,
    List.drop_append_of_le_length (by omega),
    List.take_append_of_le_length (by rw [List.length_drop]; omega)]

theorem Headed.append {d : Bytes} (h : Headed d) (e : Bytes) : Headed (d ++ e) := by
  have hroom := h.room
  have hnl := (headWire_append e h.room).2
  have h37 := hroom
  rw [show fixedLen = 37 from rfl] at h37
  refine ⟨?_, ?_, ?_, ?_⟩
  · rw [hnl, List.length_append]
    omega
  · rw [List.take_append_of_le_length (by omega)]
    exact h.magic
  · rw [leAt_append e (by omega)]
    exact h.wire
  · rw [hnl]
    exact h.name

theorem Headed.take {d : Bytes} (h : Headed d) {n : Nat} (hlo : fixedLen + leAt d 36 1 ≤ n)
    (hhi : n ≤ d.length) : Headed (d.take n) ∧ headWire (d.take n) = headWire d ∧
      leAt (d.take n) 36 1 = leAt d 36 1 := by
  rw [show fixedLen = 37 from rfl] at hlo
  have hlen : (d.take n).length = n := by rw [List.length_take, Nat.min_eq_left hhi]
  have hnl : leAt (d.take n) 36 1 = leAt d 36 1 := leAt_take (by omega) hhi
  have hroom : fixedLen + leAt (d.take n) 36 1 ≤ (d.take n).length := by
    rw [hnl, hlen]
    exact hlo
  have hsame := headWire_append (d := d.take n) (d.drop n) hroom
  rw [List.take_append_drop] at hsame
  refine ⟨⟨hroom, ?_, ?_, hnl ▸ h.name⟩, hsame.1.symm, hnl⟩
  · rw [List.take_take, Nat.min_eq_left (by omega)]
    exact h.magic
  · rw [leAt_take (by omega) hhi]
    exact h.wire

/-! ## Every length -/

/-- What decodes carries its length. -/
theorem decode_ok {d : Bytes} {w : Wire} (h : decode d = (.ok, w)) : Headed d ∧
    d.length = fixedLen + leAt d 36 1 + (headWire d).overlayLen ∧
    (hasFlag (headWire d).flags flagBlob = false → (headWire d).overlayLen = 0) ∧
    { w with overlay := [] } = headWire d := by
  have hhead : Headed d := by
    unfold decode at h
    split at h
    next => cases h
    next h8 =>
      dsimp only at h
      split at h
      next => cases h
      next hwire =>
        split at h
        next => cases h
        next hlen =>
          split at h
          next => cases h
          next hname =>
            rw [not_or] at h8 hname
            exact ⟨Nat.le_of_not_lt hname.2, Decidable.not_not.mp h8.2, Decidable.not_not.mp hwire,
              Nat.le_of_not_lt hname.1⟩
  rw [hhead.decode] at h
  refine ⟨hhead, ?_⟩
  cases hb : hasFlag (headWire d).flags flagBlob with
  | false =>
    rw [hb, Bool.not_false, if_pos rfl] at h
    split at h
    next => cases h
    next hlen =>
      rw [not_or, Decidable.not_not, Decidable.not_not] at hlen
      simp only [Prod.mk.injEq, true_and] at h
      refine ⟨by rw [hlen.1]; exact hlen.2, fun _ => hlen.1, ?_⟩
      rw [← h]
      rfl
  | true =>
    rw [hb, Bool.not_true, if_neg Bool.false_ne_true] at h
    split at h
    next => cases h
    next hlo =>
      split at h
      next => cases h
      next hhi =>
        simp only [Prod.mk.injEq, true_and] at h
        refine ⟨by omega, fun hc => (by cases hc), ?_⟩
        rw [← h]
        rfl

section
variable {d : Bytes} {w : Wire} (h : decode d = (.ok, w))
include h

theorem decode_name : w.name.length = leAt d 36 1 := by
  obtain ⟨hhead, hlen, -, hw⟩ := decode_ok h
  have hname : ({ w with overlay := [] } : Wire).name = (headWire d).name := congrArg Wire.name hw
  have hroom := hhead.room
  rw [show w.name = (headWire d).name from hname, show (headWire d).name = (d.drop fixedLen).take (leAt d 36 1) from rfl,
    List.length_take, List.length_drop]
  omega

/-- Cut inside the overlay, all but the overlay holds. -/
theorem decode_cut {n : Nat} (hlo : fixedLen + w.name.length ≤ n) (hhi : n < d.length) :
    decode (d.take n) = (.cut, { w with overlay := [] }) := by
  rw [decode_name h] at hlo
  obtain ⟨hhead, hlen, hplain, hw⟩ := decode_ok h
  obtain ⟨hcut, hsame, hnl⟩ := hhead.take hlo (Nat.le_of_lt hhi)
  have hn : (d.take n).length = n := by rw [List.length_take, Nat.min_eq_left (Nat.le_of_lt hhi)]
  rw [hcut.decode, hsame, hnl, hn, hw]
  cases hb : hasFlag (headWire d).flags flagBlob with
  | false =>
    -- without an overlay there is nothing to cut
    have h0 := hplain hb
    omega
  | true =>
    rw [Bool.not_true, if_neg Bool.false_ne_true, if_pos (by omega)]

/-- Cut before the overlay, it is malformed. -/
theorem decode_short {n : Nat} (hlo : 8 ≤ n) (hhi : n < fixedLen + w.name.length) :
    (decode (d.take n)).1 = .malformed := by
  rw [decode_name h] at hhi
  obtain ⟨hhead, hlen, -, -⟩ := decode_ok h
  have hle : n ≤ d.length := by
    have := hhead.room
    omega
  have hn : (d.take n).length = n := by rw [List.length_take, Nat.min_eq_left hle]
  have hmagic : (d.take n).take 4 = magic := by
    rw [List.take_take, Nat.min_eq_left (by omega)]
    exact hhead.magic
  unfold decode
  rw [if_neg (fun hc => hc.elim (fun hc => by omega) fun hc => hc hmagic)]
  dsimp only
  rw [leAt_take (by omega) hle, if_neg (fun hc => hc hhead.wire), hn]
  by_cases h37 : n < fixedLen
  · rw [if_pos h37]
  · rw [show fixedLen = 37 from rfl] at h37
    rw [if_neg (by rw [show fixedLen = 37 from rfl]; exact h37), leAt_take (by omega) hle,
      if_pos (Or.inr hhi)]

/-- Stretched, it is malformed. -/
theorem decode_long {e : Bytes} (he : e ≠ []) : (decode (d ++ e)).1 = .malformed := by
  obtain ⟨hhead, hlen, hplain, -⟩ := decode_ok h
  obtain ⟨hsame, hnl⟩ := headWire_append e hhead.room
  have hpos := List.length_pos_iff.mpr he
  rw [(hhead.append e).decode, hsame, hnl, List.length_append]
  cases hb : hasFlag (headWire d).flags flagBlob with
  | false =>
    have h0 := hplain hb
    rw [Bool.not_false, if_pos rfl, if_pos (Or.inr (by omega))]
  | true =>
    rw [Bool.not_true, if_neg Bool.false_ne_true, if_neg (by omega), if_pos (by omega)]

end

/-- Fewer bytes than a magic and a version are foreign. -/
theorem decode_tiny {d : Bytes} {n : Nat} (hn : n < 8) : decode (d.take n) = (.foreign, {}) := by
  unfold decode
  rw [if_pos (Or.inl (by rw [List.length_take]; omega))]

/-! ## Marks -/

/-- A mark sets its own bit, clears the other mark's and leaves every other flag. -/
theorem testBit_markFlags {flags : Nat} (h : flags < 256) (mark : CopyMark) (k : Nat) :
    (markFlags flags mark).testBit k =
      if k = 2 then mark = .uni else if k = 5 then mark = .plain else flags.testBit k := by
  have hall : ∀ mark ∈ [CopyMark.group, .uni, .plain], ∀ flags < 256, ∀ k < 8,
      (markFlags flags mark).testBit k =
        if k = 2 then mark = .uni else if k = 5 then mark = .plain else flags.testBit k := by
    decide +kernel
  by_cases hk : k < 8
  · exact hall mark (by cases mark <;> simp) flags h k hk
  have hpow : 2 ^ 8 ≤ 2 ^ k := Nat.pow_le_pow_right (by decide) (by omega)
  have hlt := (hasFlag_markFlags h mark).2.2
  rw [if_neg (by omega), if_neg (by omega), Nat.testBit_lt_two_pow (by omega),
    Nat.testBit_lt_two_pow (by omega)]

/-! ## The codec -/

/-- What a datagram gives back of what it was built from. -/
def Wire.read (w : Wire) : Wire :=
  { w with
    overlay := if hasFlag w.flags flagBlob then w.overlay else []
    overlayLen := (if hasFlag w.flags flagBlob then w.overlay else []).length
    wire := wireVersion }

/-- A datagram of `w` decodes to it, tells every wrong length, and is marked in its two flags. -/
structure Codec (w : Wire) (d : Bytes) : Prop where
  whole : decode d = (.ok, w.read)
  cut : ∀ n, fixedLen + w.name.length ≤ n → n < d.length →
    decode (d.take n) = (.cut, { w.read with overlay := [] })
  short : ∀ n, 8 ≤ n → n < fixedLen + w.name.length → (decode (d.take n)).1 = .malformed
  long : ∀ e, e ≠ [] → (decode (d ++ e)).1 = .malformed
  tiny : ∀ n, n < 8 → (decode (d.take n)).1 = .foreign
  marked : ∀ mark, decode (markCopy d mark) =
    (.ok, { w.read with flags := markFlags w.flags mark })
  marks : ∀ mark k, (markFlags w.flags mark).testBit k =
    if k = 2 then mark = .uni else if k = 5 then mark = .plain else w.flags.testBit k

/-- Every announce is read back whole, and a wrong length is told for what it is: a cut inside
the overlay, foreign below the eight bytes that name the protocol, malformed else. -/
theorem announce_codec {w : Wire} (h : w.Fits) {cap : Nat} (hroom : encode w cap ≠ []) :
    Codec w (encode w cap) := by
  have hd : encode w cap = encodeBytes w := by
    by_cases hbig : (if hasFlag w.flags flagBlob then w.overlay else []).length > 0xFFFF ∨
        fixedLen + (w.name.take nodeNameMax).length +
          (if hasFlag w.flags flagBlob then w.overlay else []).length > cap
    · exact absurd (if_pos hbig) hroom
    · exact if_neg hbig
  have hok : decode (encodeBytes w) = (.ok, w.read) := decode_encode h
  rw [hd]
  refine ⟨hok, fun n => decode_cut hok, fun n => decode_short hok, fun e => decode_long hok,
    fun n hn => by rw [decode_tiny hn], fun mark => ?_, fun mark => testBit_markFlags h.flags mark⟩
  have hf := hasFlag_markFlags h.flags mark
  have hfits : ({ w with flags := markFlags w.flags mark } : Wire).Fits :=
    ⟨hf.2.2, h.domain, h.uuid, h.version, h.changedAgoMs, h.dataPort, h.name, h.overlay⟩
  rw [markCopy_encodeBytes h, decode_encode hfits]
  dsimp only
  rw [hf.1]
  rfl

/-- A solicit with an overlay of two bytes. -/
def asking : Wire :=
  { flags := flagReq + flagBlob, domain := 7, uuid := List.replicate 16 2, name := [110], overlay := [1, 2] }

theorem asking_fits : asking.Fits := by
  refine ⟨?_, ?_, ?_, ?_, ?_, ?_, ?_, ?_⟩ <;> decide

theorem announce_codec_asking : Codec asking (encode asking 2000) :=
  announce_codec asking_fits (by decide)

/-- Three bytes of it are foreign, not malformed. -/
theorem tiny_foreign : ¬ ∀ (w : Wire) (cap n : Nat), w.Fits → n < fixedLen + w.name.length →
    (decode ((encode w cap).take n)).1 = .malformed := by
  intro h
  have hfew := h asking 2000 3 asking_fits (by decide)
  rw [decode_tiny (by decide)] at hfew
  cases hfew

end Rant.Discovery
