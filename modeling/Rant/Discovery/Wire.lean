import Rant.Lib.Endian
import Rant.Transport.Types
/-!
# The discovery datagram

`i_rant_discovery_encode` and `i_rant_discovery_decode` of `src/discovery/core.c`. The
first eight bytes keep their place in every wire version, so a node of another version is
still recognized. `decode_encode` is the round trip.
-/

namespace Rant.Discovery

open Rant.Lib
open Rant.Transport (Bytes)

/-- `RANT_WIRE_VERSION`. -/
def wireVersion : Nat := 10

/-- `RANT_NODE_NAME_MAX`. -/
def nodeNameMax : Nat := 32

/-- `RANT_DISCOVERY_FIXED_LEN`. -/
def fixedLen : Nat := 37

/-- `RANT_DISCOVERY_FLAG_*`. -/
def flagBye : Nat := 0x01
def flagReq : Nat := 0x02
def flagUni : Nat := 0x04
def flagAll : Nat := 0x08
def flagBlob : Nat := 0x10
def flagOne : Nat := 0x20
def flagFull : Nat := 0x40

/-- `flags & bit`. -/
def hasFlag (flags bit : Nat) : Bool := flags &&& bit ≠ 0

/-- `i_RantDiscoveryWire`. -/
structure Wire where
  flags : Nat := 0
  domain : Nat := 0
  uuid : Bytes := []
  version : Nat := 0
  changedAgoMs : Nat := 0
  dataPort : Nat := 0
  name : Bytes := []
  overlay : Bytes := []
  overlayLen : Nat := 0
  wire : Nat := 0
  deriving Repr, DecidableEq

/-- `i_RantDiscoveryDecode`. -/
inductive Decode
  | ok
  | foreign
  | wire
  | malformed
  | cut
  deriving Repr, DecidableEq

/-- The magic `uDSC`. -/
def magic : Bytes := [117, 68, 83, 67]

/-- The datagram's bytes, whatever its buffer. -/
def encodeBytes (w : Wire) : Bytes :=
  let name := w.name.take nodeNameMax
  let overlay := if hasFlag w.flags flagBlob then w.overlay else []
  magic ++ (writeLe 1 wireVersion ++ (writeLe 1 w.flags ++ (writeLe 2 w.domain ++ (w.uuid ++
    (writeLe 4 w.version ++ (writeLe 4 w.changedAgoMs ++ (writeLe 2 overlay.length ++
      (writeLe 2 w.dataPort ++ (writeLe 1 name.length ++ (name ++ overlay))))))))))

/-- `i_rant_discovery_encode` into `cap` bytes: nothing when it does not fit. -/
def encode (w : Wire) (cap : Nat) : Bytes :=
  let overlay := if hasFlag w.flags flagBlob then w.overlay else []
  if overlay.length > 0xFFFF ∨ fixedLen + (w.name.take nodeNameMax).length + overlay.length > cap
  then []
  else encodeBytes w

/-- The `n` byte number at `i` of a datagram known to be long enough. -/
def leAt (d : Bytes) (i n : Nat) : Nat := (readLe d i n).getD 0

/-- `i_rant_discovery_decode`. -/
def decode (d : Bytes) : Decode × Wire :=
  if d.length < 8 ∨ d.take 4 ≠ magic then (.foreign, {})
  else
    let w : Wire := { wire := leAt d 4 1, flags := leAt d 5 1, domain := leAt d 6 2 }
    if w.wire ≠ wireVersion then (.wire, w)
    else if d.length < fixedLen then (.malformed, w)
    else
      let w := { w with
        uuid := (d.drop 8).take 16
        version := leAt d 24 4
        changedAgoMs := leAt d 28 4
        overlayLen := leAt d 32 2
        dataPort := leAt d 34 2 }
      let nl := leAt d 36 1
      let len := fixedLen + nl
      if nl > nodeNameMax ∨ d.length < len then (.malformed, w)
      else
        let w := { w with name := (d.drop fixedLen).take nl }
        if !hasFlag w.flags flagBlob then
          if w.overlayLen ≠ 0 ∨ d.length ≠ len then (.malformed, w) else (.ok, w)
        else if d.length < len + w.overlayLen then (.cut, w)     -- the OS cut it to our buffer
        else if d.length > len + w.overlayLen then (.malformed, w)
        else (.ok, { w with overlay := (d.drop len).take w.overlayLen })

/-- `i_RantCopyMark`. -/
inductive CopyMark
  | group
  | uni
  | plain
  deriving Repr, DecidableEq

/-- The flag a mark sets. -/
def CopyMark.bit : CopyMark → Nat
  | .group => 0
  | .uni => flagUni
  | .plain => flagOne

/-- A byte of flags marked: `(flags & ~marks) | set`. -/
def markFlags (flags : Nat) (mark : CopyMark) : Nat :=
  (flags &&& (0xFF - (flagUni + flagOne))) ||| mark.bit

/-- `i_rant_discovery_mark_copy`. -/
def markCopy (d : Bytes) (mark : CopyMark) : Bytes :=
  if d.length ≤ 5 then d else d.set 5 (UInt8.ofNat (markFlags (leAt d 5 1) mark))

/-! ## The round trip -/

/-- A datagram a core builds. -/
structure Wire.Fits (w : Wire) : Prop where
  flags : w.flags < 256
  domain : w.domain < 2 ^ 16
  uuid : w.uuid.length = 16
  version : w.version < 2 ^ 32
  changedAgoMs : w.changedAgoMs < 2 ^ 32
  dataPort : w.dataPort < 2 ^ 16
  name : w.name.length ≤ nodeNameMax
  overlay : w.overlay.length ≤ 0xFFFF

/-- A field at the front, and what is left behind it. -/
theorem leAt_front {d rest : Bytes} {i n v : Nat} (h : d.drop i = writeLe n v ++ rest)
    (hv : v < 256 ^ n) : leAt d i n = v ∧ d.drop (i + n) = rest := by
  obtain ⟨hread, hrest⟩ := readLe_front h
  unfold leAt
  rw [hread, Nat.mod_eq_of_lt hv]
  exact ⟨rfl, hrest⟩

/-- How long an encoding is. -/
theorem length_encodeBytes {w : Wire} (h : w.Fits) :
    (encodeBytes w).length =
      fixedLen + w.name.length + (if hasFlag w.flags flagBlob then w.overlay else []).length := by
  unfold encodeBytes
  dsimp only
  rw [List.take_of_length_le h.name]
  simp only [List.length_append, length_writeLe, h.uuid]
  rw [show magic.length = 4 from rfl, show fixedLen = 37 from rfl]
  omega

/-- **What a core builds is read back whole.** -/
theorem decode_encode {w : Wire} (h : w.Fits) :
    decode (encodeBytes w) = (.ok, { w with
      overlay := if hasFlag w.flags flagBlob then w.overlay else []
      overlayLen := (if hasFlag w.flags flagBlob then w.overlay else []).length
      wire := wireVersion }) := by
  have hlen := length_encodeBytes h
  obtain ⟨o, ho⟩ : ∃ o, o = if hasFlag w.flags flagBlob then w.overlay else [] := ⟨_, rfl⟩
  rw [← ho] at hlen ⊢
  have holen : o.length < 256 ^ 2 := by
    have := h.overlay
    rw [ho]
    split
    next => omega
    next => exact Nat.two_pow_pos 16
  obtain ⟨d, hd⟩ : ∃ d, d = encodeBytes w := ⟨_, rfl⟩
  have h0 : d = magic ++ (writeLe 1 wireVersion ++ (writeLe 1 w.flags ++ (writeLe 2 w.domain ++
      (w.uuid ++ (writeLe 4 w.version ++ (writeLe 4 w.changedAgoMs ++ (writeLe 2 o.length ++
        (writeLe 2 w.dataPort ++ (writeLe 1 w.name.length ++ (w.name ++ o)))))))))) := by
    rw [hd, ho]
    unfold encodeBytes
    dsimp only
    rw [List.take_of_length_le h.name]
  rw [← hd] at hlen ⊢
  have hn := h.name
  rw [show nodeNameMax = 32 from rfl] at hn
  -- each field, and what is left behind it
  obtain ⟨hmagic, h4⟩ := drop_front (i := 0) h0 (show magic.length = 4 from rfl)
  rw [List.drop_zero] at hmagic
  obtain ⟨hwire, h5⟩ := leAt_front h4 (by decide)
  obtain ⟨hflags, h6⟩ := leAt_front h5 h.flags
  obtain ⟨hdomain, h8⟩ := leAt_front h6 h.domain
  obtain ⟨huuid, h24⟩ := drop_front h8 h.uuid
  obtain ⟨hversion, h28⟩ := leAt_front h24 h.version
  obtain ⟨hago, h32⟩ := leAt_front h28 h.changedAgoMs
  obtain ⟨hol, h34⟩ := leAt_front h32 holen
  obtain ⟨hport, h36⟩ := leAt_front h34 h.dataPort
  obtain ⟨hnl, h37⟩ := leAt_front h36 (by omega)
  obtain ⟨hname, hover⟩ := drop_front h37 rfl
  rw [show fixedLen = 37 from rfl] at hlen
  unfold decode
  rw [hmagic, hwire, hflags, hdomain, huuid, hversion, hago, hol, hport, hnl,
    show fixedLen = 37 from rfl, show nodeNameMax = 32 from rfl]
  rw [if_neg (fun hc => hc.elim (fun hc => by omega) fun hc => hc rfl)]
  dsimp only
  rw [if_neg (fun h => h rfl), if_neg (by omega), if_neg (by omega), hname, hover]
  cases hb : hasFlag w.flags flagBlob with
  | true =>
    rw [if_neg (by decide), if_neg (by omega), if_neg (by omega), List.take_length]
  | false =>
    have ho' : o = [] := by rw [ho, hb]; rfl
    rw [ho'] at hlen ⊢
    rw [List.length_nil] at hlen ⊢
    rw [if_pos (by decide), if_neg (by omega)]

end Rant.Discovery
