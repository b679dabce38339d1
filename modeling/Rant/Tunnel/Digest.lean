import Rant.Tunnel.Hash
/-!
# Digests, the proof and base64

`src/tunnel/core.c`: the digests are the words of the last state, the proof is the hash of the key's two
pads around the nonce in hex, base64 takes three bytes at a time.

Each is compared with its definition in the standard, which is written here without the code: the
padded message in blocks and the compression folded over them, the keyed hash by its two pads, the
alphabet by groups of six bits. However the message is cut into updates, the state is that of the
whole (`Rant.Tunnel.Hash`).
-/

namespace Rant.Tunnel

open Rant.Lib
open Rant.Lib.Fragment (writeAt length_writeAt)

/-- `h` of SHA-256 and of SHA-1. -/
abbrev Words256 := Vector UInt32 8
abbrev Words1 := Vector UInt32 5

def iv256 : Words256 :=
  #v[0x6a09e667, 0xbb67ae85, 0x3c6ef372, 0xa54ff53a, 0x510e527f, 0x9b05688c, 0x1f83d9ab, 0x5be0cd19]

def iv1 : Words1 := #v[0x67452301, 0xEFCDAB89, 0x98BADCFE, 0x10325476, 0xC3D2E1F0]

/-! ## The block functions -/

/-- `i_rant_rol` and `i_rant_ror`. -/
def rol (v n : UInt32) : UInt32 := (v <<< n) ||| (v >>> (32 - n))
def ror (v n : UInt32) : UInt32 := (v >>> n) ||| (v <<< (32 - n))

/-- The first sixteen words of `w`. -/
def blockWords (p : Bytes) : List UInt32 :=
  (List.range 16).map fun i =>
    ((p.getD (4 * i) 0).toUInt32 <<< 24) ||| ((p.getD (4 * i + 1) 0).toUInt32 <<< 16) |||
      ((p.getD (4 * i + 2) 0).toUInt32 <<< 8) ||| (p.getD (4 * i + 3) 0).toUInt32

/-- `k` more of them. `back j` is the word `j` before the one that is made. -/
def schedule (next : (Nat → UInt32) → UInt32) : Nat → List UInt32 → List UInt32
  | 0, w => w
  | k + 1, w => schedule next k (w ++ [next fun j => w.getD (w.length - j) 0])

/-- `f` and `k` of a round of SHA-1. -/
def round1 (i : Nat) (b c d : UInt32) : UInt32 × UInt32 :=
  if i < 20 then ((b &&& c) ||| (~~~b &&& d), 0x5A827999)
  else if i < 40 then (b ^^^ c ^^^ d, 0x6ED9EBA1)
  else if i < 60 then ((b &&& c) ||| (b &&& d) ||| (c &&& d), 0x8F1BBCDC)
  else (b ^^^ c ^^^ d, 0xCA62C1D6)

/-- `i_rant_sha1_block`. -/
def sha1Block (h : Words1) (p : Bytes) : Words1 :=
  let w := schedule (fun back => rol (back 3 ^^^ back 8 ^^^ back 14 ^^^ back 16) 1) 64 (blockWords p)
  let (a, b, c, d, e) := (List.range 80).foldl
    (fun (a, b, c, d, e) i =>
      let (f, k) := round1 i b c d
      (rol a 5 + f + e + k + w.getD i 0, a, rol b 30, c, d))
    (h[0], h[1], h[2], h[3], h[4])
  #v[h[0] + a, h[1] + b, h[2] + c, h[3] + d, h[4] + e]

/-- The `k` of SHA-256. -/
def k256 : List UInt32 := [
  0x428a2f98, 0x71374491, 0xb5c0fbcf, 0xe9b5dba5, 0x3956c25b, 0x59f111f1, 0x923f82a4, 0xab1c5ed5,
  0xd807aa98, 0x12835b01, 0x243185be, 0x550c7dc3, 0x72be5d74, 0x80deb1fe, 0x9bdc06a7, 0xc19bf174,
  0xe49b69c1, 0xefbe4786, 0x0fc19dc6, 0x240ca1cc, 0x2de92c6f, 0x4a7484aa, 0x5cb0a9dc, 0x76f988da,
  0x983e5152, 0xa831c66d, 0xb00327c8, 0xbf597fc7, 0xc6e00bf3, 0xd5a79147, 0x06ca6351, 0x14292967,
  0x27b70a85, 0x2e1b2138, 0x4d2c6dfc, 0x53380d13, 0x650a7354, 0x766a0abb, 0x81c2c92e, 0x92722c85,
  0xa2bfe8a1, 0xa81a664b, 0xc24b8b70, 0xc76c51a3, 0xd192e819, 0xd6990624, 0xf40e3585, 0x106aa070,
  0x19a4c116, 0x1e376c08, 0x2748774c, 0x34b0bcb5, 0x391c0cb3, 0x4ed8aa4a, 0x5b9cca4f, 0x682e6ff3,
  0x748f82ee, 0x78a5636f, 0x84c87814, 0x8cc70208, 0x90befffa, 0xa4506ceb, 0xbef9a3f7, 0xc67178f2]

/-- `i_rant_sha256_block`. -/
def sha256Block (h : Words256) (p : Bytes) : Words256 :=
  let w := schedule
    (fun back => back 16 + (ror (back 15) 7 ^^^ ror (back 15) 18 ^^^ (back 15 >>> 3)) + back 7 +
      (ror (back 2) 17 ^^^ ror (back 2) 19 ^^^ (back 2 >>> 10))) 48 (blockWords p)
  let (a, b, c, d, e, f, g, x) := (List.range 64).foldl
    (fun (a, b, c, d, e, f, g, x) i =>
      let t1 := x + (ror e 6 ^^^ ror e 11 ^^^ ror e 25) + ((e &&& f) ^^^ (~~~e &&& g)) + k256.getD i 0 + w.getD i 0
      let t2 := (ror a 2 ^^^ ror a 13 ^^^ ror a 22) + ((a &&& b) ^^^ (a &&& c) ^^^ (b &&& c))
      (t1 + t2, a, b, c, d + t1, e, f, g))
    (h[0], h[1], h[2], h[3], h[4], h[5], h[6], h[7])
  #v[h[0] + a, h[1] + b, h[2] + c, h[3] + d, h[4] + e, h[5] + f, h[6] + g, h[7] + x]

/-! ## Digests -/

/-- The words as they go to `out`. -/
def digest {n : Nat} (h : Vector UInt32 n) : Bytes := h.toList.flatMap be32

/-- `i_rant_sha256_two` into an `out` of 32 bytes. -/
def sha256Two (compress : Words256 → Bytes → Words256) (block a b : Bytes) : Option Bytes :=
  (sha256TwoState compress iv256 block a b).bind fun h => writeIn (List.replicate 32 0) 0 (digest h)

/-- `i_rant_sha1` into an `out` of 20 bytes. -/
def sha1 (compress : Words1 → Bytes → Words1) (data : Bytes) : Option Bytes :=
  (sha1State compress iv1 data).bind fun h => writeIn (List.replicate 20 0) 0 (digest h)

/-- `i_rant_hex`. -/
def hexDigit (v : Nat) : UInt8 := ("0123456789abcdef".toList.map fun c => UInt8.ofNat c.toNat).getD (v % 16) 0

/-- `i_rant_tunnel_proof`. `junk` is what the blocks of the three hashes hold at first. -/
def tunnelProof (compress : Words256 → Bytes → Words256) (junk : Nat → Bytes) (passphrase nonce : Bytes) :
    Option Bytes :=
  let key := List.replicate 64 0
  (if 64 < passphrase.length then
      (sha256Two compress (junk 0) passphrase []).bind fun digest => writeIn key 0 digest
    else writeIn key 0 passphrase).bind fun key =>
  (sha256Two compress (junk 1) (key.map (· ^^^ 0x36)) nonce).bind fun inner =>
    (sha256Two compress (junk 2) (key.map (· ^^^ 0x5c)) inner).bind fun mac =>
      writeIn (List.replicate 65 0) 0 ((mac.flatMap fun b => [hexDigit (b.toNat / 16), hexDigit b.toNat]) ++ [0])

/-- The alphabet of `i_rant_base64`. -/
def base64Abc : Bytes :=
  "ABCDEFGHIJKLMNOPQRSTUVWXYZabcdefghijklmnopqrstuvwxyz0123456789+/".toList.map fun c => UInt8.ofNat c.toNat

def base64Char (v : Nat) : UInt8 := base64Abc.getD (v % 64) 0

/-- The loop of `i_rant_base64`. -/
def base64From (inp : Bytes) : Nat → Nat → Nat → Bytes → Option (Nat × Bytes)
  | 0, i, o, out => if i < inp.length then none else some (o, out)
  | k + 1, i, o, out =>
    if i < inp.length then
      (inp[i]?).bind fun a =>
        (if i + 1 < inp.length then inp[i + 1]?.map UInt8.toNat else some 0).bind fun b =>
          (if i + 2 < inp.length then inp[i + 2]?.map UInt8.toNat else some 0).bind fun c =>
            let v := a.toNat * 2 ^ 16 + b * 2 ^ 8 + c
            (writeIn out o [base64Char (v / 2 ^ 18), base64Char (v / 2 ^ 12),
              if i + 1 < inp.length then base64Char (v / 2 ^ 6) else 0x3D,
              if i + 2 < inp.length then base64Char v else 0x3D]).bind fun out => base64From inp k (i + 3) (o + 4) out
    else some (o, out)

/-- `i_rant_base64` into `out`: the length it returns, and `out` after it. -/
def base64 (inp out : Bytes) : Option (Nat × Bytes) :=
  let need := (inp.length + 2) / 3 * 4
  if out.length < need + 1 then some (0, out)
  else
    (base64From inp inp.length 0 0 out).bind fun x => (writeIn x.2 x.1 [0]).map fun out => (x.1, out)

/-! ## The standards -/

/-- SHA-256 of FIPS 180-4 and SHA-1 of FIPS 180, over their block functions. -/
def fips256 (compress : Words256 → Bytes → Words256) (m : Bytes) : Bytes := digest (fipsState compress iv256 m)
def fips1 (compress : Words1 → Bytes → Words1) (m : Bytes) : Bytes := digest (fipsState compress iv1 m)

/-- HMAC of RFC 2104 over a hash with blocks of 64 bytes. -/
def rfcHmac (hash : Bytes → Bytes) (key text : Bytes) : Bytes :=
  let k := if 64 < key.length then hash key else key
  let k := k ++ List.replicate (64 - k.length) 0
  hash (k.map (· ^^^ 0x5c) ++ hash (k.map (· ^^^ 0x36) ++ text))

/-- A digit of lowercase hex. -/
def lowerHex (v : Nat) : UInt8 := UInt8.ofNat (if v < 10 then 48 + v else 87 + v)

/-- A character of RFC 4648: `A` to `Z`, `a` to `z`, `0` to `9`, `+` and `/`. -/
def rfcChar (v : Nat) : UInt8 :=
  UInt8.ofNat (if v < 26 then 65 + v else if v < 52 then 71 + v else if v < 62 then v - 4 else if v = 62 then 43 else 47)

/-- Base64 of RFC 4648: three bytes as four groups of six bits, the last padded. -/
def rfcBase64 : Bytes → Bytes
  | [] => []
  | [a] => [rfcChar (a.toNat / 4), rfcChar (a.toNat % 4 * 16), 0x3D, 0x3D]
  | [a, b] => [rfcChar (a.toNat / 4), rfcChar (a.toNat % 4 * 16 + b.toNat / 16), rfcChar (b.toNat % 16 * 4), 0x3D]
  | a :: b :: c :: s =>
    rfcChar (a.toNat / 4) :: rfcChar (a.toNat % 4 * 16 + b.toNat / 16) ::
      rfcChar (b.toNat % 16 * 4 + c.toNat / 64) :: rfcChar (c.toNat % 64) :: rfcBase64 s

/-! ## The digests -/

theorem length_digest {n : Nat} (h : Vector UInt32 n) : (digest h).length = 4 * n := by
  have hall : ∀ l : List UInt32, (l.flatMap be32).length = 4 * l.length := by
    intro l
    induction l with
    | nil => rfl
    | cons w l ih =>
      rw [List.flatMap_cons, List.length_append, ih, List.length_cons]
      show 4 + _ = _
      omega
  unfold digest
  rw [hall, Vector.length_toList]

theorem writeIn_whole {n : Nat} {s : Bytes} (hs : s.length = n) : writeIn (List.replicate n 0) 0 s = some s := by
  unfold writeIn writeAt
  rw [if_pos (by rw [List.length_replicate]; omega), List.take_zero, List.nil_append,
    List.drop_of_length_le (by rw [List.length_replicate]; omega), List.append_nil]

theorem sha256Two_eq (compress : Words256 → Bytes → Words256) {block : Bytes} (hblock : block.length = 64) (a b : Bytes) :
    sha256Two compress block a b = some (fips256 compress (a ++ b)) := by
  unfold sha256Two
  rw [sha256TwoState_eq iv256 hblock, Option.bind_some]
  exact writeIn_whole (length_digest (fipsState compress iv256 (a ++ b)))

theorem sha1_eq (compress : Words1 → Bytes → Words1) (data : Bytes) : sha1 compress data = some (fips1 compress data) := by
  unfold sha1
  rw [sha1State_eq, Option.bind_some]
  exact writeIn_whole (length_digest (fipsState compress iv1 data))

theorem hexDigit_eq (v : Nat) : hexDigit v = lowerHex (v % 16) := by
  have hall : ∀ k < 16, hexDigit k = lowerHex k := by decide +kernel
  have hmod : hexDigit v = hexDigit (v % 16) := by
    unfold hexDigit
    rw [Nat.mod_mod]
  rw [hmod]
  exact hall _ (Nat.mod_lt _ (by decide))

/-- The proof writes inside its buffers and is the HMAC in lowercase hex. -/
theorem tunnelProof_eq (compress : Words256 → Bytes → Words256) {junk : Nat → Bytes} (hjunk : ∀ i, (junk i).length = 64)
    (passphrase nonce : Bytes) :
    tunnelProof compress junk passphrase nonce =
      some (((rfcHmac (fips256 compress) passphrase nonce).flatMap fun b => [lowerHex (b.toNat / 16), lowerHex (b.toNat % 16)])
        ++ [0]) := by
  have hlen : ∀ m, (fips256 compress m).length = 32 := fun m => length_digest _
  have hkey : (if 64 < passphrase.length then
        (sha256Two compress (junk 0) passphrase []).bind fun digest => writeIn (List.replicate 64 0) 0 digest
      else writeIn (List.replicate 64 0) 0 passphrase) =
      some ((if 64 < passphrase.length then fips256 compress passphrase else passphrase) ++
        List.replicate (64 - (if 64 < passphrase.length then fips256 compress passphrase else passphrase).length) 0) := by
    have hwrite : ∀ s : Bytes, s.length ≤ 64 → writeIn (List.replicate 64 0) 0 s = some (s ++ List.replicate (64 - s.length) 0) := by
      intro s hs
      have hz := @writeIn_zeros [] s 64 0 (by omega)
      rw [List.nil_append, List.length_nil, Nat.zero_add, Nat.zero_add, List.replicate_zero, List.append_nil,
        List.nil_append] at hz
      exact hz
    split
    · rw [sha256Two_eq compress (hjunk 0), Option.bind_some, List.append_nil]
      exact hwrite _ (by rw [hlen]; decide)
    · rename_i hshort
      exact hwrite _ (Nat.not_lt.mp hshort)
  have hmaclen : (rfcHmac (fips256 compress) passphrase nonce).length = 32 := hlen _
  unfold tunnelProof
  dsimp only
  rw [hkey, Option.bind_some, sha256Two_eq compress (hjunk 1), Option.bind_some, sha256Two_eq compress (hjunk 2),
    Option.bind_some]
  have hhex : ∀ m : Bytes, (m.flatMap fun b => [hexDigit (b.toNat / 16), hexDigit b.toNat]) =
      m.flatMap fun b => [lowerHex (b.toNat / 16), lowerHex (b.toNat % 16)] := by
    intro m
    induction m with
    | nil => rfl
    | cons b m ih =>
      have hb : b.toNat / 16 % 16 = b.toNat / 16 := Nat.mod_eq_of_lt (by have := b.toNat_lt; omega)
      rw [List.flatMap_cons, List.flatMap_cons, ih, hexDigit_eq, hexDigit_eq, hb]
  have hhexlen : ∀ m : Bytes, (m.flatMap fun b => [lowerHex (b.toNat / 16), lowerHex (b.toNat % 16)]).length =
      2 * m.length := by
    intro m
    induction m with
    | nil => rfl
    | cons b m ih =>
      simp only [List.flatMap_cons, List.length_append, List.length_cons, List.length_nil, ih]
      omega
  rw [hhex]
  refine writeIn_whole ?_
  rw [List.length_append, hhexlen]
  show 2 * (rfcHmac (fips256 compress) passphrase nonce).length + 1 = 65
  rw [hmaclen]

/-! ## Base64 -/

theorem base64Char_eq (v : Nat) : base64Char v = rfcChar (v % 64) := by
  have hall : ∀ k < 64, base64Char k = rfcChar k := by decide +kernel
  have hmod : base64Char v = base64Char (v % 64) := by
    unfold base64Char
    rw [Nat.mod_mod]
  rw [hmod]
  exact hall _ (Nat.mod_lt _ (by decide))

theorem length_rfcBase64 : ∀ s : Bytes, (rfcBase64 s).length = (s.length + 2) / 3 * 4
  | [] => rfl
  | [a] => by simp only [rfcBase64, List.length_cons, List.length_nil]
  | [a, b] => by simp only [rfcBase64, List.length_cons, List.length_nil]
  | a :: b :: c :: s => by
    unfold rfcBase64
    simp only [List.length_cons, length_rfcBase64 s]
    omega

/-- The four characters of up to three bytes. -/
theorem rfcBase64_step {a : UInt8} {s : Bytes} :
    rfcBase64 (a :: s) =
      [rfcChar (a.toNat / 4), rfcChar (a.toNat % 4 * 16 + (s.getD 0 0).toNat / 16),
        if 0 < s.length then rfcChar ((s.getD 0 0).toNat % 16 * 4 + (s.getD 1 0).toNat / 64) else 0x3D,
        if 1 < s.length then rfcChar ((s.getD 1 0).toNat % 64) else 0x3D] ++ rfcBase64 (s.drop 2) := by
  rcases s with _ | ⟨b, _ | ⟨c, s⟩⟩
  · simp [rfcBase64]
  · simp [rfcBase64]
  · simp [rfcBase64]

/-- A byte behind the one at `i`, zero past the end. -/
theorem base64_read {inp s : Bytes} {a : UInt8} {i : Nat} (hs : inp.drop i = a :: s) (j : Nat) :
    (if i + (j + 1) < inp.length then inp[i + (j + 1)]?.map UInt8.toNat else some 0) = some (s.getD j 0).toNat := by
  have hlen : inp.length - i = s.length + 1 := by
    rw [← List.length_drop, hs, List.length_cons]
  have hget : inp[i + (j + 1)]? = s[j]? := by
    rw [← List.getElem?_drop, hs, List.getElem?_cons_succ]
  rw [hget]
  by_cases hj : j < s.length
  · rw [if_pos (by omega), List.getD_eq_getElem?_getD, List.getElem?_eq_getElem hj]
    rfl
  · rw [if_neg (by omega), List.getD_eq_getElem?_getD, List.getElem?_eq_none (Nat.not_lt.mp hj)]
    rfl

/-- The groups of the word of three bytes. -/
theorem base64_groups (a b c : UInt8) :
    base64Char ((a.toNat * 2 ^ 16 + b.toNat * 2 ^ 8 + c.toNat) / 2 ^ 18) = rfcChar (a.toNat / 4) ∧
    base64Char ((a.toNat * 2 ^ 16 + b.toNat * 2 ^ 8 + c.toNat) / 2 ^ 12) = rfcChar (a.toNat % 4 * 16 + b.toNat / 16) ∧
    base64Char ((a.toNat * 2 ^ 16 + b.toNat * 2 ^ 8 + c.toNat) / 2 ^ 6) = rfcChar (b.toNat % 16 * 4 + c.toNat / 64) ∧
    base64Char (a.toNat * 2 ^ 16 + b.toNat * 2 ^ 8 + c.toNat) = rfcChar (c.toNat % 64) := by
  have ha := a.toNat_lt
  have hb := b.toNat_lt
  have hc := c.toNat_lt
  refine ⟨?_, ?_, ?_, ?_⟩ <;> rw [base64Char_eq] <;> congr 1 <;> omega

/-- A write leaves what is behind it. -/
theorem writeIn_rest {buf buf' data : Bytes} {k : Nat} (h : writeIn buf k data = some buf') :
    buf'.drop (k + data.length) = buf.drop (k + data.length) := by
  unfold writeIn at h
  by_cases hfit : k + data.length ≤ buf.length
  · rw [if_pos hfit] at h
    obtain rfl := Option.some.inj h
    have hhead : (buf.take k ++ data).length = k + data.length := by
      rw [List.length_append, List.length_take, Nat.min_eq_left (by omega)]
    unfold writeAt
    exact List.drop_left' hhead
  · rw [if_neg hfit] at h
    cases h

/-- The loop stands at a multiple of three, with the groups before it written. -/
theorem base64From_eq (inp : Bytes) : ∀ (k i o : Nat) (out done : Bytes), inp.length ≤ i + 3 * k → out.take o = done →
    o + (rfcBase64 (inp.drop i)).length ≤ out.length → ∃ out', base64From inp k i o out =
      some (o + (rfcBase64 (inp.drop i)).length, out') ∧ out'.length = out.length ∧
      out'.take (o + (rfcBase64 (inp.drop i)).length) = done ++ rfcBase64 (inp.drop i) ∧
      out'.drop (o + (rfcBase64 (inp.drop i)).length) = out.drop (o + (rfcBase64 (inp.drop i)).length) := by
  intro k
  induction k with
  | zero =>
    intro i o out done hk hdone hfit
    have hend : inp.drop i = [] := List.drop_of_length_le (by omega)
    rw [hend]
    refine ⟨out, if_neg (by omega), rfl, ?_, rfl⟩
    show out.take o = done ++ []
    rw [hdone, List.append_nil]
  | succ k ih =>
    intro i o out done hk hdone hfit
    unfold base64From
    by_cases hi : i < inp.length
    · rw [if_pos hi]
      obtain ⟨a, s, hs⟩ : ∃ a s, inp.drop i = a :: s := ⟨_, _, List.drop_eq_getElem_cons hi⟩
      have hlen : inp.length - i = s.length + 1 := by
        rw [← List.length_drop, hs, List.length_cons]
      have hget : inp[i]? = some a := by
        rw [← Nat.add_zero i, ← List.getElem?_drop, hs, List.getElem?_cons_zero]
      have hnext : inp.drop (i + 3) = s.drop 2 := by
        rw [← List.drop_drop, hs]
        rfl
      obtain ⟨h₀, h₁, h₂, h₃⟩ := base64_groups a (s.getD 0 0) (s.getD 1 0)
      have hgroup := @rfcBase64_step a s
      generalize hfour : [rfcChar (a.toNat / 4), rfcChar (a.toNat % 4 * 16 + (s.getD 0 0).toNat / 16),
        if 0 < s.length then rfcChar ((s.getD 0 0).toNat % 16 * 4 + (s.getD 1 0).toNat / 64) else 0x3D,
        if 1 < s.length then rfcChar ((s.getD 1 0).toNat % 64) else 0x3D] = four at hgroup
      have hflen : four.length = 4 := hfour ▸ rfl
      rw [hs, hgroup, List.length_append, hflen, ← Nat.add_assoc, ← hnext] at hfit ⊢
      obtain ⟨out₁, hwrite, hl₁, ht₁⟩ := @writeIn_next out done four o hdone (by omega)
      have hsame : out₁.drop (o + 4) = out.drop (o + 4) := hflen ▸ writeIn_rest hwrite
      rw [hflen] at ht₁
      obtain ⟨out', hrun, hl, ht, hd⟩ := ih (i + 3) (o + 4) out₁ (done ++ four) (by omega) ht₁ (by omega)
      refine ⟨out', ?_, hl.trans hl₁, ?_, ?_⟩
      · rw [hget, Option.bind_some, base64_read hs 0, Option.bind_some, base64_read hs 1, Option.bind_some]
        dsimp only
        have hone : i + 1 < inp.length ↔ 0 < s.length := by omega
        have htwo : i + 2 < inp.length ↔ 1 < s.length := by omega
        rw [h₀, h₁, h₂, h₃]
        simp only [hone, htwo]
        rw [hfour, hwrite, Option.bind_some]
        exact hrun
      · rw [ht, List.append_assoc]
      · rw [hd, ← List.drop_drop, hsame, List.drop_drop]
    · have hend : inp.drop i = [] := List.drop_of_length_le (by omega)
      rw [hend, if_neg hi]
      refine ⟨out, rfl, rfl, ?_, rfl⟩
      show out.take o = done ++ []
      rw [hdone, List.append_nil]

/-- Base64 writes inside `out`: the characters and the terminator, or nothing when they do not fit. -/
theorem base64_eq (inp out : Bytes) :
    (out.length < (rfcBase64 inp).length + 1 → base64 inp out = some (0, out)) ∧
    ((rfcBase64 inp).length + 1 ≤ out.length →
      base64 inp out = some ((rfcBase64 inp).length, rfcBase64 inp ++ 0 :: out.drop ((rfcBase64 inp).length + 1))) := by
  unfold base64
  dsimp only
  rw [← length_rfcBase64]
  refine ⟨fun hsmall => if_pos hsmall, fun hfit => ?_⟩
  obtain ⟨out₁, hrun, hl₁, ht₁, hd₁⟩ := base64From_eq inp inp.length 0 0 out [] (by omega) rfl (by
    rw [List.drop_zero]
    omega)
  rw [List.drop_zero, Nat.zero_add] at hrun ht₁ hd₁
  rw [if_neg (by omega), hrun, Option.bind_some]
  dsimp only
  obtain ⟨out₂, hwrite, hl₂, ht₂⟩ := @writeIn_next out₁ _ [0] _ ht₁ (by rw [List.length_singleton]; omega)
  have hrest := writeIn_rest hwrite
  rw [List.length_singleton] at ht₂ hrest
  rw [hwrite, Option.map_some, ← List.take_append_drop ((rfcBase64 inp).length + 1) out₂, ht₂, hrest,
    ← List.drop_drop, hd₁, List.drop_drop, List.nil_append, List.append_assoc]
  rfl

/-! ## The four functions -/

/-- The four functions give what their standards say and write inside their buffers. -/
theorem hashes_standard (compress : Words256 → Bytes → Words256) (compress1 : Words1 → Bytes → Words1) {block : Bytes}
    {junk : Nat → Bytes} (hblock : block.length = 64) (hjunk : ∀ i, (junk i).length = 64) :
    (∀ a b, sha256Two compress block a b = some (fips256 compress (a ++ b))) ∧
    (∀ data, sha1 compress1 data = some (fips1 compress1 data)) ∧
    (∀ passphrase nonce, tunnelProof compress junk passphrase nonce =
      some (((rfcHmac (fips256 compress) passphrase nonce).flatMap fun b => [lowerHex (b.toNat / 16), lowerHex (b.toNat % 16)])
        ++ [0])) ∧
    ∀ inp out, (out.length < (rfcBase64 inp).length + 1 → base64 inp out = some (0, out)) ∧
      ((rfcBase64 inp).length + 1 ≤ out.length →
        base64 inp out = some ((rfcBase64 inp).length, rfcBase64 inp ++ 0 :: out.drop ((rfcBase64 inp).length + 1))) :=
  ⟨sha256Two_eq compress hblock, sha1_eq compress1, tunnelProof_eq compress hjunk, base64_eq⟩

/-- At the block functions of the source, where the digests of `abc` are the ones of the standards. -/
theorem hashes_standard_one :
    (∀ a b, sha256Two sha256Block (List.replicate 64 0) a b = some (fips256 sha256Block (a ++ b))) ∧
    sha256Two sha256Block (List.replicate 64 0) [0x61] [0x62, 0x63] =
      some [0xba, 0x78, 0x16, 0xbf, 0x8f, 0x01, 0xcf, 0xea, 0x41, 0x41, 0x40, 0xde, 0x5d, 0xae, 0x22, 0x23, 0xb0, 0x03, 0x61,
        0xa3, 0x96, 0x17, 0x7a, 0x9c, 0xb4, 0x10, 0xff, 0x61, 0xf2, 0x00, 0x15, 0xad] ∧
    sha1 sha1Block [0x61, 0x62, 0x63] =
      some [0xa9, 0x99, 0x3e, 0x36, 0x47, 0x06, 0x81, 0x6a, 0xba, 0x3e, 0x25, 0x71, 0x78, 0x50, 0xc2, 0x6c, 0x9c, 0xd0, 0xd8,
        0x9d] := by
  have hall := @hashes_standard sha256Block sha1Block (List.replicate 64 0) (fun _ => List.replicate 64 0)
    List.length_replicate fun _ => List.length_replicate
  exact ⟨hall.1, by decide +kernel, by decide +kernel⟩

end Rant.Tunnel
