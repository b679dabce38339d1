import Rant.Lib.Blocks
import Rant.Lib.Fragment
import Rant.Tunnel.Wire
/-!
# Hashes and base64

`src/tunnel/core.c`: SHA-256 of two strings, SHA-1 of one, the passphrase proof and base64. The block
functions are parameters. Every write is checked: `none` is one outside its buffer. Next to each stands
what its standard says.
-/

namespace Rant.Tunnel

open Rant.Lib
open Rant.Lib.Fragment (writeAt length_writeAt take_writeAt_next)

/-- `data` written into `buf` from `off` on. -/
def writeIn (buf : Bytes) (off : Nat) (data : Bytes) : Option Bytes :=
  if off + data.length ≤ buf.length then some (writeAt buf off data) else none

/-- A number in eight bytes, the highest first. -/
def be64 (x : Nat) : Bytes := (List.range 8).map fun i => UInt8.ofNat (x / 2 ^ (8 * (7 - i)))

/-- A word in four. -/
def be32 (w : UInt32) : Bytes := [(w >>> 24).toUInt8, (w >>> 16).toUInt8, (w >>> 8).toUInt8, w.toUInt8]

section

variable {H : Type} (compress : H → Bytes → H)

/-- The loop of `i_rant_sha256_two` over one part. -/
def shaPart : Nat → H → Bytes → Nat → Bytes → Option (H × Bytes × Nat)
  | 0, h, block, fill, p => if p.length = 0 then some (h, block, fill) else none
  | k + 1, h, block, fill, p =>
    if p.length = 0 then some (h, block, fill)
    else
      let take := min (64 - fill) p.length
      (writeIn block fill (p.take take)).bind fun block =>
        if fill + take = 64 then shaPart k (compress h block) block 0 (p.drop take)
        else shaPart k h block (fill + take) (p.drop take)

/-- `i_rant_sha256_two`, up to the words of its state. -/
def sha256TwoState (iv : H) (block : Bytes) (a b : Bytes) : Option H :=
  (shaPart compress a.length iv block 0 a).bind fun x =>
    (shaPart compress b.length x.1 x.2.1 x.2.2 b).bind fun (h, block, fill) =>
      (writeIn block fill [0x80]).bind fun block =>
        let fill := fill + 1
        let bits := (a.length + b.length) * 8
        if 56 < fill then
          (writeIn block fill (List.replicate (64 - fill) 0)).bind fun block =>
            let h := compress h block
            (writeIn block 0 (List.replicate 56 0)).bind fun block =>
              (writeIn block 56 (be64 bits)).map fun block => compress h block
        else
          (writeIn block fill (List.replicate (56 - fill) 0)).bind fun block =>
            (writeIn block 56 (be64 bits)).map fun block => compress h block

/-- The loop of `i_rant_sha1` over the whole blocks. -/
def sha1Blocks : Nat → H → Bytes → H × Bytes
  | 0, h, p => (h, p)
  | k + 1, h, p => if 64 ≤ p.length then sha1Blocks k (compress h (p.take 64)) (p.drop 64) else (h, p)

/-- `i_rant_sha1`, up to the words of its state. -/
def sha1State (iv : H) (data : Bytes) : Option H :=
  let x := sha1Blocks compress data.length iv data
  let left := x.2.length
  let tail := List.replicate 128 0
  (writeIn tail 0 x.2).bind fun tail =>
    (writeIn tail left [0x80]).bind fun tail =>
      let n := if left + 9 ≤ 64 then 64 else 128
      (writeIn tail (n - 8) (be64 (data.length * 8))).map fun tail =>
        let h := compress x.1 (tail.take 64)
        if n = 128 then compress h ((tail.drop 64).take 64) else h

/-! ## FIPS 180-4 -/

/-- The padded message: a one bit, zeros, the length in bits. -/
def fipsPad (m : Bytes) : Bytes :=
  m ++ 0x80 :: (List.replicate ((119 - m.length % 64) % 64) 0 ++ be64 (m.length * 8))

/-- The state after the blocks of the padded message. -/
def fipsState (iv : H) (m : Bytes) : H := chain compress 64 iv (fipsPad m)

/-! ## The states agree -/

variable {compress}

@[simp] theorem length_be64 (x : Nat) : (be64 x).length = 8 := by
  unfold be64
  rw [List.length_map, List.length_range]

/-- A write behind what the buffer was filled with. -/
theorem writeIn_next {buf pre data : Bytes} {k : Nat} (hpre : buf.take k = pre) (hfit : k + data.length ≤ buf.length) :
    ∃ buf', writeIn buf k data = some buf' ∧ buf'.length = buf.length ∧ buf'.take (k + data.length) = pre ++ data := by
  refine ⟨writeAt buf k data, if_pos hfit, length_writeAt hfit, ?_⟩
  rw [take_writeAt_next (by omega), hpre]

/-- One part goes into the block as far as it fills it. -/
theorem shaPart_absorbed : ∀ (k : Nat) (h : H) (block : Bytes) (fill : Nat) (p : Bytes), p.length ≤ k →
    block.length = 64 → fill < 64 → ∃ h' block' fill', shaPart compress k h block fill p = some (h', block', fill') ∧
      block'.length = 64 ∧ fill' < 64 ∧
      absorbed compress 64 h (block.take fill ++ p) = (some h', block'.take fill') := by
  intro k
  induction k with
  | zero =>
    intro h block fill p hp hblock hfill
    obtain rfl := List.eq_nil_of_length_eq_zero (Nat.le_zero.mp hp)
    refine ⟨h, block, fill, rfl, hblock, hfill, ?_⟩
    rw [List.append_nil, absorbed_short (by rw [List.length_take]; omega)]
  | succ k ih =>
    intro h block fill p hp hblock hfill
    unfold shaPart
    by_cases hempty : p.length = 0
    · obtain rfl := List.eq_nil_of_length_eq_zero hempty
      refine ⟨h, block, fill, if_pos rfl, hblock, hfill, ?_⟩
      rw [List.append_nil, absorbed_short (by rw [List.length_take]; omega)]
    rw [if_neg hempty]
    dsimp only
    have htl : (p.take (min (64 - fill) p.length)).length = min (64 - fill) p.length := by
      rw [List.length_take]
      omega
    obtain ⟨block₁, hwrite, hlen, htake⟩ := @writeIn_next block (block.take fill) (p.take (min (64 - fill) p.length)) fill
      rfl (by omega)
    rw [hwrite, Option.bind_some]
    rw [htl] at htake
    have hsplit : block.take fill ++ p =
        block₁.take (fill + min (64 - fill) p.length) ++ p.drop (min (64 - fill) p.length) := by
      rw [htake, List.append_assoc, List.take_append_drop]
    have hdrop : (p.drop (min (64 - fill) p.length)).length ≤ k := by
      rw [List.length_drop]
      omega
    by_cases hfull : fill + min (64 - fill) p.length = 64
    · rw [if_pos hfull]
      obtain ⟨h', block', fill', hrun, hl, hf, habs⟩ := ih (compress h block₁) block₁ 0 _ hdrop (hlen.trans hblock)
        (by decide)
      refine ⟨h', block', fill', hrun, hl, hf, ?_⟩
      have hall : block₁.take 64 = block₁ := List.take_of_length_le (Nat.le_of_eq (hlen.trans hblock))
      rw [List.take_zero, List.nil_append] at habs
      rw [hsplit, hfull, hall, absorbed_block (by decide) (hlen.trans hblock), habs]
    · rw [if_neg hfull]
      obtain ⟨h', block', fill', hrun, hl, hf, habs⟩ := ih h block₁ (fill + min (64 - fill) p.length) _ hdrop
        (hlen.trans hblock) (by omega)
      exact ⟨h', block', fill', hrun, hl, hf, hsplit ▸ habs⟩

/-- The padded message is what was left of the message and the padding. -/
theorem fipsState_rest {iv h : H} {m rest : Bytes} (hrest : absorbed compress 64 iv m = (some h, rest)) :
    absorbed compress 64 h (rest ++ 0x80 :: (List.replicate ((119 - m.length % 64) % 64) 0 ++ be64 (m.length * 8))) =
      (some (fipsState compress iv m), []) := by
  have hlen : (fipsPad m).length = ((fipsPad m).length / 64) * 64 := by
    unfold fipsPad
    simp only [List.length_append, List.length_cons, List.length_replicate, length_be64]
    omega
  rw [← absorbed_append (by decide) hrest]
  exact absorbed_chain (by decide) _ iv _ hlen

theorem rest_length {iv h : H} {m rest : Bytes} (hrest : absorbed compress 64 iv m = (some h, rest)) :
    rest.length = m.length % 64 := by
  obtain ⟨h', rest', habs, hlen⟩ := @absorbed_rest UInt8 H compress 64 (by decide) iv m
  rw [hrest] at habs
  rw [(Prod.mk.inj habs).2, hlen]

/-- One last block. -/
theorem fipsState_one {iv h : H} {m rest block : Bytes} (hrest : absorbed compress 64 iv m = (some h, rest))
    (hshort : rest.length ≤ 55)
    (hblock : block = rest ++ [0x80] ++ List.replicate (56 - (rest.length + 1)) 0 ++ be64 (m.length * 8)) :
    fipsState compress iv m = compress h block := by
  have hmod := rest_length hrest
  have hzeros : (119 - m.length % 64) % 64 = 56 - (rest.length + 1) := by omega
  have hshape : rest ++ 0x80 :: (List.replicate ((119 - m.length % 64) % 64) 0 ++ be64 (m.length * 8)) = block ++ [] := by
    rw [hblock, hzeros]
    simp only [List.append_assoc, List.cons_append, List.nil_append, List.append_nil]
  have hlen : block.length = 64 := by
    rw [hblock]
    simp only [List.length_append, List.length_cons, List.length_nil, List.length_replicate, length_be64]
    omega
  have hstate := fipsState_rest hrest
  rw [hshape, absorbed_block (by decide) hlen, absorbed_short (by decide)] at hstate
  exact (Option.some.inj (Prod.mk.inj hstate).1).symm

/-- Two. -/
theorem fipsState_two {iv h : H} {m rest block block' : Bytes} (hrest : absorbed compress 64 iv m = (some h, rest))
    (hfill : rest.length < 64) (hlong : 55 < rest.length)
    (hblock : block = rest ++ [0x80] ++ List.replicate (64 - (rest.length + 1)) 0)
    (hblock' : block' = List.replicate 56 0 ++ be64 (m.length * 8)) :
    fipsState compress iv m = compress (compress h block) block' := by
  have hmod := rest_length hrest
  have hzeros : (119 - m.length % 64) % 64 = 64 - (rest.length + 1) + 56 := by omega
  have hshape : rest ++ 0x80 :: (List.replicate ((119 - m.length % 64) % 64) 0 ++ be64 (m.length * 8)) =
      block ++ (block' ++ []) := by
    rw [hblock, hblock', hzeros, ← List.replicate_append_replicate]
    simp only [List.append_assoc, List.cons_append, List.nil_append, List.append_nil]
  have hlen : block.length = 64 := by
    rw [hblock]
    simp only [List.length_append, List.length_cons, List.length_nil, List.length_replicate]
    omega
  have hlen' : block'.length = 64 := by
    rw [hblock']
    simp only [List.length_append, List.length_replicate, length_be64]
  have hstate := fipsState_rest hrest
  rw [hshape, absorbed_block (by decide) hlen, absorbed_block (by decide) hlen', absorbed_short (by decide)] at hstate
  exact (Option.some.inj (Prod.mk.inj hstate).1).symm

/-- The two-part hash writes inside its block and ends in the state of the joined message. -/
theorem sha256TwoState_eq (iv : H) {block : Bytes} (hblock : block.length = 64) (a b : Bytes) :
    sha256TwoState compress iv block a b = some (fipsState compress iv (a ++ b)) := by
  obtain ⟨h₁, block₁, fill₁, hrun₁, hl₁, hf₁, habs₁⟩ := @shaPart_absorbed H compress a.length iv block 0 a
    (Nat.le_refl _) hblock (by decide)
  obtain ⟨h₂, block₂, fill₂, hrun₂, hl₂, hf₂, habs₂⟩ := @shaPart_absorbed H compress b.length h₁ block₁ fill₁ b
    (Nat.le_refl _) hl₁ hf₁
  rw [List.take_zero, List.nil_append] at habs₁
  have hrest : absorbed compress 64 iv (a ++ b) = (some h₂, block₂.take fill₂) := by
    rw [absorbed_append (by decide) habs₁, habs₂]
  have hrl : (block₂.take fill₂).length = fill₂ := List.length_take_of_le (by omega)
  have hbits : (a.length + b.length) * 8 = (a ++ b).length * 8 := by rw [List.length_append]
  unfold sha256TwoState
  rw [hrun₁, Option.bind_some, hrun₂, Option.bind_some]
  dsimp only
  obtain ⟨block₃, hw₃, hl₃, ht₃⟩ := @writeIn_next block₂ (block₂.take fill₂) [0x80] fill₂ rfl
    (by rw [List.length_singleton]; omega)
  rw [hw₃, Option.bind_some]
  rw [List.length_singleton] at ht₃
  by_cases hlong : 56 < fill₂ + 1
  · rw [if_pos hlong]
    obtain ⟨block₄, hw₄, hl₄, ht₄⟩ := @writeIn_next block₃ _ (List.replicate (64 - (fill₂ + 1)) 0) (fill₂ + 1) ht₃
      (by rw [List.length_replicate]; omega)
    obtain ⟨block₅, hw₅, hl₅, ht₅⟩ := @writeIn_next block₄ [] (List.replicate 56 0) 0 rfl
      (by rw [List.length_replicate]; omega)
    rw [List.length_replicate, Nat.zero_add, List.nil_append] at ht₅
    obtain ⟨block₆, hw₆, hl₆, ht₆⟩ := @writeIn_next block₅ _ (be64 ((a.length + b.length) * 8)) 56 ht₅
      (by rw [length_be64]; omega)
    rw [hw₄, Option.bind_some, hw₅, Option.bind_some, hw₆, Option.map_some]
    rw [List.length_replicate, show fill₂ + 1 + (64 - (fill₂ + 1)) = 64 by omega,
      List.take_of_length_le (by omega)] at ht₄
    rw [length_be64, List.take_of_length_le (by omega), hbits] at ht₆
    refine congrArg some (fipsState_two hrest (by omega) (by omega) ?_ ht₆).symm
    rw [hrl]
    exact ht₄
  · rw [if_neg hlong]
    obtain ⟨block₄, hw₄, hl₄, ht₄⟩ := @writeIn_next block₃ _ (List.replicate (56 - (fill₂ + 1)) 0) (fill₂ + 1) ht₃
      (by rw [List.length_replicate]; omega)
    rw [List.length_replicate, show fill₂ + 1 + (56 - (fill₂ + 1)) = 56 by omega] at ht₄
    obtain ⟨block₅, hw₅, hl₅, ht₅⟩ := @writeIn_next block₄ _ (be64 ((a.length + b.length) * 8)) 56 ht₄
      (by rw [length_be64]; omega)
    rw [hw₄, Option.bind_some, hw₅, Option.map_some]
    rw [length_be64, List.take_of_length_le (by omega), hbits] at ht₅
    refine congrArg some (fipsState_one hrest (by omega) ?_).symm
    rw [hrl]
    exact ht₅

theorem sha1Blocks_absorbed : ∀ (k : Nat) (h : H) (p : Bytes), p.length ≤ k →
    absorbed compress 64 h p = (some (sha1Blocks compress k h p).1, (sha1Blocks compress k h p).2) ∧
      (sha1Blocks compress k h p).2.length < 64 := by
  intro k
  induction k with
  | zero =>
    intro h p hp
    obtain rfl := List.eq_nil_of_length_eq_zero (Nat.le_zero.mp hp)
    exact ⟨absorbed_short (by decide), Nat.zero_lt_succ 63⟩
  | succ k ih =>
    intro h p hp
    unfold sha1Blocks
    by_cases hblock : 64 ≤ p.length
    · rw [if_pos hblock]
      have htake : (p.take 64).length = 64 := List.length_take_of_le hblock
      obtain ⟨habs, hshort⟩ := ih (compress h (p.take 64)) (p.drop 64) (by rw [List.length_drop]; omega)
      refine ⟨?_, hshort⟩
      rw [← habs, ← absorbed_block (by decide) htake, List.take_append_drop]
    · rw [if_neg hblock]
      exact ⟨absorbed_short (Nat.not_le.mp hblock), Nat.not_le.mp hblock⟩

/-- A write into the zeros behind what the buffer holds. -/
theorem writeIn_zeros (pre data : Bytes) {k j : Nat} (hfit : j + data.length ≤ k) :
    writeIn (pre ++ List.replicate k 0) (pre.length + j) data =
      some (pre ++ List.replicate j 0 ++ data ++ List.replicate (k - (j + data.length)) 0) := by
  have hlen : pre.length + j + data.length ≤ (pre ++ List.replicate k (0 : UInt8)).length := by
    rw [List.length_append, List.length_replicate]
    omega
  have htake : (pre ++ List.replicate k (0 : UInt8)).take (pre.length + j) = pre ++ List.replicate j 0 := by
    rw [List.take_length_add_append, List.take_replicate, Nat.min_eq_left (by omega)]
  have hdrop : (pre ++ List.replicate k (0 : UInt8)).drop (pre.length + j + data.length) =
      List.replicate (k - (j + data.length)) 0 := by
    rw [Nat.add_assoc, List.drop_length_add_append, List.drop_replicate]
  unfold writeIn
  rw [if_pos hlen]
  unfold writeAt
  rw [htake, hdrop]

/-- SHA-1 writes inside its tail and ends in the state of the message. -/
theorem sha1State_eq (iv : H) (data : Bytes) : sha1State compress iv data = some (fipsState compress iv data) := by
  obtain ⟨habs, hshort⟩ := @sha1Blocks_absorbed H compress data.length iv data (Nat.le_refl _)
  unfold sha1State
  generalize sha1Blocks compress data.length iv data = x at habs hshort ⊢
  obtain ⟨h, rest⟩ := x
  dsimp only at habs hshort ⊢
  have hfirst := @writeIn_zeros [] rest 128 0 (by omega)
  rw [List.nil_append, List.length_nil, Nat.zero_add, Nat.zero_add, List.replicate_zero, List.append_nil,
    List.nil_append] at hfirst
  have hsecond := @writeIn_zeros rest [0x80] (128 - rest.length) 0 (by rw [List.length_singleton]; omega)
  rw [Nat.add_zero, List.replicate_zero, List.append_nil, List.length_singleton, Nat.zero_add] at hsecond
  rw [hfirst, Option.bind_some, hsecond, Option.bind_some]
  have hpre : (rest ++ [(0x80 : UInt8)]).length = rest.length + 1 := by
    rw [List.length_append, List.length_singleton]
  by_cases hone : rest.length + 9 ≤ 64
  · have hthird := @writeIn_zeros (rest ++ [0x80]) (be64 (data.length * 8)) (128 - rest.length - 1) (56 - (rest.length + 1))
      (by rw [length_be64]; omega)
    rw [hpre, show rest.length + 1 + (56 - (rest.length + 1)) = 64 - 8 by omega] at hthird
    rw [if_pos hone, hthird, Option.map_some, if_neg (by decide)]
    refine congrArg some (fipsState_one habs (by omega) ?_).symm
    refine List.take_left' ?_
    simp only [List.length_append, List.length_singleton, List.length_replicate, length_be64]
    omega
  · have hthird := @writeIn_zeros (rest ++ [0x80]) (be64 (data.length * 8)) (128 - rest.length - 1)
      (64 - (rest.length + 1) + 56) (by rw [length_be64]; omega)
    rw [hpre, show rest.length + 1 + (64 - (rest.length + 1) + 56) = 128 - 8 by omega, length_be64,
      show 128 - rest.length - 1 - (64 - (rest.length + 1) + 56 + 8) = 0 by omega, List.replicate_zero, List.append_nil,
      ← List.replicate_append_replicate, ← List.append_assoc (rest ++ [0x80]), List.append_assoc (rest ++ [0x80] ++ _)] at hthird
    have hlen : (rest ++ [0x80] ++ List.replicate (64 - (rest.length + 1)) (0 : UInt8)).length = 64 := by
      rw [List.length_append, hpre, List.length_replicate]
      omega
    rw [if_neg hone, hthird, Option.map_some, if_pos rfl]
    refine congrArg some (fipsState_two habs hshort (by omega) ?_ ?_).symm
    · exact List.take_left' hlen
    · rw [List.drop_left' hlen]
      refine List.take_of_length_le ?_
      rw [List.length_append, List.length_replicate, length_be64]

end

end Rant.Tunnel
