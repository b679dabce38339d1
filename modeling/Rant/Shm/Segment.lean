import Mathlib.Algebra.Order.Ring.Int
/-!
# The geometry of an attached segment

`i_rant_shm_attach` of `src/shm/core.c` takes the geometry of a segment from a header that
another process wrote, and tests it against the mapped size. `size_t` has 64 bits. A chunk size
within 32 bytes of `2 ^ 32` has a stride that wraps, so a small mapping passes the test and its
chunks reach past it, and a mapping shorter than the header is read past its end. Everywhere
else what is attached lies inside the mapping (`segment_inBounds`).
-/

namespace Rant.Shm

/-- `i_RantShmSegHdr`, whatever the mapping holds. -/
structure SegHdr where
  magic : UInt32
  version : UInt32
  segmentId : UInt64
  chunkBytes : UInt32
  nChunks : UInt32
  ownerPid : UInt64
  ownerHost : List UInt8
  deriving Repr, DecidableEq

/-- `RANT__SHM_HDR_SZ` and `RANT__SHM_CHDR_SZ`. -/
def hdrSz : Nat := 48
def chdrSz : Nat := 16

/-- `RANT_SHM_MAGIC` and `RANT_SHM_VERSION`. -/
def shmMagic : UInt32 := 0x4D484453
def shmVersion : UInt32 := 1

/-- `i_rant_align_up`. -/
def alignUp (n align : Nat) : Nat := (n + (align - 1)) / align * align

/-- `i_rant_shm_geom`: the stride, in 32 bits, and the total. -/
def geom (chunkBytes nChunks : Nat) : Nat × Nat :=
  let aligned := alignUp chunkBytes 16 % 2 ^ 32
  let stride := (chdrSz + aligned) % 2 ^ 32
  (stride, hdrSz + nChunks * stride)

/-- A load: where and how long. -/
structure Load where
  off : Nat
  len : Nat
  deriving Repr, DecidableEq

/-- `i_RantShmPool`. -/
structure Pool where
  mapBytes : Nat
  chunkBytes : Nat
  nChunks : Nat
  stride : Nat
  deriving Repr, DecidableEq

/-- `i_RantShmDesc`, without the segment. -/
structure Desc where
  chunk : UInt32
  length : UInt32
  generation : UInt64
  deriving Repr, DecidableEq

namespace Pool

/-- `i_rant_shm_chunk_hdr`. -/
def chunkHdr (p : Pool) (i : Nat) : Nat := hdrSz + i * p.stride

/-- `i_rant_shm_chunk_pay`. -/
def chunkPay (p : Pool) (i : Nat) : Nat := p.chunkHdr i + chdrSz

/-- Where chunk `i` ends. -/
def chunkEnd (p : Pool) (i : Nat) : Nat := p.chunkPay i + p.chunkBytes

/-- `i_rant_shm_read`, where the chunk's generation is `generation`. -/
def read (p : Pool) (generation : UInt64) (d : Desc) : Option Load :=
  if d.chunk.toNat ≥ p.nChunks then none
  else if generation ≠ d.generation then none
  else if d.length.toNat > p.chunkBytes then none
  else some ⟨p.chunkPay d.chunk.toNat, d.length.toNat⟩

end Pool

/-! ## Attaching -/

/-- What the attach reads of the header. A test that fails ends it. -/
def attachLoads (hdr : SegHdr) : List Load :=
  let magic : List Load := [⟨16, 4⟩, ⟨20, 4⟩, ⟨0, 4⟩]
  if hdr.magic ≠ shmMagic then magic
  else if hdr.version ≠ shmVersion then magic ++ [⟨4, 4⟩]
  else magic ++ [⟨4, 4⟩, ⟨32, 16⟩]

/-- The tests of the attach. -/
def accepts (mapBytes : Nat) (hdr : SegHdr) (ours : List UInt8) : Bool :=
  hdr.magic = shmMagic && hdr.version = shmVersion && hdr.ownerHost = ours &&
    hdr.chunkBytes ≠ 0 && hdr.nChunks ≠ 0 &&
    (geom hdr.chunkBytes.toNat hdr.nChunks.toNat).2 ≤ mapBytes

/-- `i_rant_shm_attach` of a mapping of `mapBytes` bytes, on the host `ours`. -/
def attach (mapBytes : Nat) (hdr : SegHdr) (ours : List UInt8) : Option Pool :=
  if accepts mapBytes hdr ours then
    some { mapBytes := mapBytes, chunkBytes := hdr.chunkBytes.toNat, nChunks := hdr.nChunks.toNat
           stride := (geom hdr.chunkBytes.toNat hdr.nChunks.toNat).1 }
  else none

/-- Everything that is read lies inside the mapping, and the chunks apart. -/
structure InBounds (mapBytes : Nat) (hdr : SegHdr) (ours : List UInt8) : Prop where
  loads : ∀ l ∈ attachLoads hdr, l.off + l.len ≤ mapBytes
  chunks : ∀ p, attach mapBytes hdr ours = some p → ∀ i, i < p.nChunks →
    p.chunkHdr i + chdrSz ≤ mapBytes ∧ p.chunkPay i + p.chunkBytes ≤ mapBytes
  apart : ∀ p, attach mapBytes hdr ours = some p → ∀ i j, i < p.nChunks → j < p.nChunks → i ≠ j →
    p.chunkEnd i ≤ p.chunkHdr j ∨ p.chunkEnd j ≤ p.chunkHdr i
  reads : ∀ p, attach mapBytes hdr ours = some p → ∀ generation d l, p.read generation d = some l →
    d.chunk.toNat < p.nChunks ∧ p.chunkPay d.chunk.toNat ≤ l.off ∧
      l.off + l.len ≤ p.chunkEnd d.chunk.toNat

variable {mapBytes : Nat} {hdr : SegHdr} {ours : List UInt8} {p : Pool}

theorem attach_some (h : attach mapBytes hdr ours = some p) :
    accepts mapBytes hdr ours = true ∧ p.chunkBytes = hdr.chunkBytes.toNat ∧
      p.nChunks = hdr.nChunks.toNat ∧ 0 < p.nChunks ∧ 0 < p.chunkBytes ∧
      p.stride = (chdrSz + alignUp hdr.chunkBytes.toNat 16 % 2 ^ 32) % 2 ^ 32 ∧
      hdrSz + p.nChunks * p.stride ≤ mapBytes := by
  unfold attach at h
  split at h
  next hacc =>
    cases h
    refine ⟨hacc, rfl, rfl, ?_, ?_, rfl, ?_⟩
    all_goals
      unfold accepts at hacc
      simp only [Bool.and_eq_true, decide_eq_true_eq, ne_eq] at hacc
    · exact Nat.pos_of_ne_zero fun hzero => hacc.1.2 (UInt32.toNat_inj.mp hzero)
    · exact Nat.pos_of_ne_zero fun hzero => hacc.1.1.2 (UInt32.toNat_inj.mp hzero)
    · exact hacc.2
  next => cases h

/-- A stride that does not wrap holds its chunk. -/
theorem stride_holds {chunkBytes : Nat} (h : chunkBytes + 32 ≤ 2 ^ 32) :
    chdrSz + chunkBytes ≤ (chdrSz + alignUp chunkBytes 16 % 2 ^ 32) % 2 ^ 32 := by
  unfold chdrSz alignUp
  omega

/-- One that does holds nothing. -/
theorem stride_wraps {chunkBytes : Nat} (h : 2 ^ 32 < chunkBytes + 32) (hlt : chunkBytes < 2 ^ 32) :
    (chdrSz + alignUp chunkBytes 16 % 2 ^ 32) % 2 ^ 32 ≤ chdrSz := by
  unfold chdrSz alignUp
  omega

/-- The chunks of a stride that holds them stand one after another inside the total. -/
theorem Pool.chunkEnd_le (hstride : chdrSz + p.chunkBytes ≤ p.stride) {i j : Nat} (h : i < j) :
    p.chunkEnd i ≤ p.chunkHdr j := by
  have hmul : (i + 1) * p.stride ≤ j * p.stride := Nat.mul_le_mul_right _ h
  rw [Nat.succ_mul] at hmul
  unfold chunkEnd chunkPay chunkHdr
  omega

/-- What is attached is in bounds exactly where the header is inside the mapping and the stride
does not wrap, but for a single chunk that fits. -/
theorem segment_inBounds (mapBytes : Nat) (hdr : SegHdr) (ours : List UInt8) :
    InBounds mapBytes hdr ours ↔
      (24 ≤ mapBytes ∧ (hdr.magic = shmMagic → hdr.version = shmVersion → 48 ≤ mapBytes)) ∧
        (accepts mapBytes hdr ours = true → hdr.chunkBytes.toNat + 32 ≤ 2 ^ 32 ∨
          hdr.nChunks = 1 ∧ 64 + hdr.chunkBytes.toNat ≤ mapBytes) := by
  have hloads : (∀ l ∈ attachLoads hdr, l.off + l.len ≤ mapBytes) ↔
      24 ≤ mapBytes ∧ (hdr.magic = shmMagic → hdr.version = shmVersion → 48 ≤ mapBytes) := by
    unfold attachLoads
    split
    next hm => simp [hm]; omega
    next hm =>
      split
      next hv => simp [hv]; omega
      next hv => simp [not_not.mp hm, not_not.mp hv]; omega
  constructor
  · intro h
    refine ⟨hloads.mp h.loads, fun hacc => ?_⟩
    obtain ⟨p, hp⟩ : ∃ p, attach mapBytes hdr ours = some p := ⟨_, if_pos hacc⟩
    obtain ⟨-, hbytes, hn, hpos, hcpos, hstride, -⟩ := attach_some hp
    rw [or_iff_not_imp_left]
    intro hwrap
    have hlt : hdr.chunkBytes.toNat < 2 ^ 32 := UInt32.toNat_lt _
    have hsmall := stride_wraps (Nat.lt_of_not_le hwrap) hlt
    rw [← hstride] at hsmall
    have hone : p.nChunks = 1 := by
      by_contra hmany
      -- chunk 1 stands inside chunk 0
      have happart := h.apart p hp 0 1 hpos (by omega) (by omega)
      unfold Pool.chunkEnd Pool.chunkPay Pool.chunkHdr at happart
      omega
    refine ⟨UInt32.toNat_inj.mp (hn.symm.trans hone), ?_⟩
    have hin := (h.chunks p hp 0 hpos).2
    unfold Pool.chunkPay Pool.chunkHdr hdrSz chdrSz at hin
    omega
  · rintro ⟨hhdr, hfits⟩
    refine ⟨hloads.mpr hhdr, fun p hp i hi => ?_, fun p hp i j hi hj hij => ?_,
      fun p hp generation d l hl => ?_⟩
    · obtain ⟨hacc, hbytes, hn, hpos, hcpos, hstride, htotal⟩ := attach_some hp
      have hend : p.chunkEnd i ≤ mapBytes := by
        rcases hfits hacc with hsmall | ⟨hone, hfit⟩
        · have hholds : chdrSz + p.chunkBytes ≤ p.stride := by
            rw [hstride, hbytes]
            exact stride_holds hsmall
          exact Nat.le_trans (Pool.chunkEnd_le hholds hi) htotal
        · have hzero : i = 0 := by
            rw [hn, hone] at hi
            exact Nat.lt_one_iff.mp hi
          rw [hzero]
          unfold Pool.chunkEnd Pool.chunkPay Pool.chunkHdr hdrSz chdrSz
          omega
      unfold Pool.chunkEnd Pool.chunkPay at hend
      exact ⟨by omega, hend⟩
    · obtain ⟨hacc, hbytes, hn, hpos, hcpos, hstride, -⟩ := attach_some hp
      rcases hfits hacc with hsmall | ⟨hone, -⟩
      · have hholds : chdrSz + p.chunkBytes ≤ p.stride := by
          rw [hstride, hbytes]
          exact stride_holds hsmall
        rcases Nat.lt_or_gt_of_ne hij with hlt | hlt
        · exact Or.inl (Pool.chunkEnd_le hholds hlt)
        · exact Or.inr (Pool.chunkEnd_le hholds hlt)
      · rw [hn, hone] at hi hj
        exact absurd ((Nat.lt_one_iff.mp hi).trans (Nat.lt_one_iff.mp hj).symm) hij
    · unfold Pool.read at hl
      split at hl
      next => cases hl
      split at hl
      next => cases hl
      split at hl
      next => cases hl
      next hchunk _ hlen =>
        cases hl
        unfold Pool.chunkEnd
        exact ⟨Nat.lt_of_not_le hchunk, Nat.le_refl _, by dsimp only; omega⟩

/-- A header that says chunks of all but 4 GiB, in a mapping of 64 bytes. -/
def wrappedHdr : SegHdr where
  magic := shmMagic
  version := shmVersion
  segmentId := 0
  chunkBytes := 0xFFFFFFFF
  nChunks := 1
  ownerPid := 0
  ownerHost := List.replicate 16 0

/-- It is attached, and its chunk lies outside. -/
theorem wrapped_attached : ¬ InBounds 64 wrappedHdr (List.replicate 16 0) := by
  intro h
  obtain ⟨p, hp⟩ : ∃ p, attach 64 wrappedHdr (List.replicate 16 0) = some p :=
    ⟨_, if_pos (by decide)⟩
  obtain ⟨-, hbytes, -, hpos, -⟩ := attach_some hp
  have hin := (h.chunks p hp 0 hpos).2
  have hbig : p.chunkBytes = 0xFFFFFFFF := hbytes
  omega

end Rant.Shm
