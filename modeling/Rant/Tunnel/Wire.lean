import Rant.Lib.Endian
import Mathlib.Tactic.Ring
/-!
# WebSocket frames out

`src/tunnel/core.c` and `src/tunnel/runtime.c`: the frames the tunnel's client appends for its bridge. A
frame is a head, a key of four bytes and the payload masked with it, the payload in two parts of which
the second is masked from where the first ended. `rfcClientFrame` is what RFC 6455 makes of such bytes.
-/

namespace Rant.Tunnel

/-- A buffer or a text. -/
abbrev Bytes := List UInt8

/-- The key of a frame. -/
abbrev MaskKey := Fin 4 → UInt8

/-- The key as it stands in the frame. -/
def MaskKey.bytes (m : MaskKey) : Bytes := [m 0, m 1, m 2, m 3]

/-- `i_rant_ws_head`. -/
def wsHead (opcode len : Nat) (mask : MaskKey) : Bytes :=
  let first := UInt8.ofNat (0x80 + opcode % 16)               -- 0x80 | (opcode & 15)
  let head :=
    if len < 126 then [first, UInt8.ofNat (0x80 + len)]
    else if len ≤ 0xFFFF then [first, UInt8.ofNat (0x80 + 126), UInt8.ofNat (len / 256), UInt8.ofNat len]
    else first :: UInt8.ofNat (0x80 + 127) :: (List.range 8).map fun i => UInt8.ofNat (len / 2 ^ (56 - 8 * i))
  head ++ mask.bytes

/-- `i_rant_ws_mask`, `offset` bytes into the payload. -/
def wsMask (mask : MaskKey) : Nat → Bytes → Bytes
  | _, [] => []
  | offset, b :: p => (b ^^^ mask (Fin.ofNat 4 offset)) :: wsMask mask (offset + 1) p

/-! ## What the client holds for its socket -/

/-- The capacity `i_rant_tunnel_reserve` asks for: doubled until it does. -/
def doubled (need : Nat) : Nat → Nat → Nat
  | 0, c => c
  | k + 1, c => if c < need then doubled need k (c * 2) else c

/-- `i_rant_tunnel_reserve`: the capacity after it, `none` where memory was refused. -/
def reserve (cap need : Nat) (granted : Bool) : Option Nat :=
  if need ≤ cap then some cap
  else if granted then some (doubled need 64 (if cap = 0 then 4096 else cap))
  else none

/-- The bytes for the socket, and the state of the mask generator. -/
structure FramesOut where
  tx : Bytes := []
  cap : Nat := 0
  mask : UInt64
  deriving DecidableEq, Repr

/-- `i_rant_tunnel_mask`: the generator's next state, whose first four bytes are the key. -/
def maskNext (x : UInt64) : UInt64 :=
  let x := x ^^^ (x <<< 13)
  let x := x ^^^ (x >>> 7)
  x ^^^ (x <<< 17)

def maskKey (x : UInt64) : MaskKey := fun i => UInt8.ofNat (x.toNat / 256 ^ i.val)

/-- The key of the next frame. -/
def FramesOut.key (c : FramesOut) : MaskKey := maskKey (maskNext c.mask)

/-- The bytes of a frame of `a` then `b`. -/
def frameBytes (opcode : Nat) (mask : MaskKey) (a b : Bytes) : Bytes :=
  wsHead opcode (a.length + b.length) mask ++ wsMask mask 0 a ++ wsMask mask a.length b

/-- `i_rant_tunnel_frame`. -/
def FramesOut.frame (c : FramesOut) (opcode : Nat) (a b : Bytes) (granted : Bool) : FramesOut × Bool :=
  let head := wsHead opcode (a.length + b.length) c.key
  let c' := { c with mask := maskNext c.mask }
  match reserve c.cap (c.tx.length + head.length + a.length + b.length) granted with
  | none => (c', false)
  | some cap => ({ c' with tx := c.tx ++ head ++ wsMask c.key 0 a ++ wsMask c.key a.length b, cap := cap }, true)

/-- `i_rant_tunnel_batch_out`: the batch as a binary frame, nothing of one that holds no datagram. -/
def FramesOut.batchOut (c : FramesOut) (batch : Bytes) (batchLen : Nat) (granted : Bool) : FramesOut :=
  if 2 < batchLen then (c.frame 2 (batch.take batchLen) [] granted).1 else c

/-! ## RFC 6455 -/

/-- A frame. -/
structure RfcFrame where
  fin : Bool
  opcode : Nat
  payload : Bytes
  deriving DecidableEq, Repr

/-- The number `n` bytes spell, the first the highest. -/
def beNat (s : Bytes) : Nat := s.foldl (fun v b => v * 256 + b.toNat) 0

/-- The length behind the two first bytes: minimal form alone, its highest bit unset. -/
def rfcLength (l7 : Nat) (s : Bytes) : Option (Nat × Bytes) :=
  if l7 < 126 then some (l7, s)
  else
    let n := if l7 = 126 then 2 else 8
    let v := beNat (s.take n)
    if s.length < n then none
    else if v < (if l7 = 126 then 126 else 0x10000) ∨ 2 ^ 63 ≤ v then none
    else some (v, s.drop n)

/-- The frame of a client at the front of the bytes: no extension, masked. -/
def rfcClientFrame : Bytes → Option (RfcFrame × Bytes)
  | b0 :: b1 :: s =>
    if b0.toNat / 16 % 8 ≠ 0 ∨ b1.toNat < 128 then none
    else
      (rfcLength (b1.toNat % 128) s).bind fun x =>
        if x.2.length < 4 + x.1 then none
        else
          let key := x.2.take 4
          let masked := (x.2.drop 4).take x.1
          some (⟨decide (128 ≤ b0.toNat), b0.toNat % 16, masked.mapIdx fun i b => b ^^^ key.getD (i % 4) 0⟩,
            x.2.drop (4 + x.1))
  | _ => none

/-- All frames of a stream that ends with the last of them. -/
def rfcClientFrames : Nat → Bytes → Option (List RfcFrame)
  | _, [] => some []
  | 0, _ => none
  | k + 1, s => (rfcClientFrame s).bind fun x => (rfcClientFrames k x.2).map (x.1 :: ·)

/-! ## Masking -/

variable {mask : MaskKey}

@[simp] theorem length_wsMask (p : Bytes) : ∀ offset, (wsMask mask offset p).length = p.length := by
  induction p with
  | nil => exact fun _ => rfl
  | cons b p ih => exact fun offset => congrArg (· + 1) (ih (offset + 1))

/-- Masking in two parts is masking the whole. -/
theorem wsMask_append (a b : Bytes) : ∀ offset,
    wsMask mask offset (a ++ b) = wsMask mask offset a ++ wsMask mask (offset + a.length) b := by
  induction a with
  | nil => exact fun _ => rfl
  | cons x a ih =>
    intro offset
    show _ :: wsMask mask (offset + 1) (a ++ b) = _ :: (wsMask mask (offset + 1) a ++ _)
    rw [ih, List.length_cons, Nat.add_assoc, Nat.add_comm 1]

theorem xor_twice (x k : UInt8) : x ^^^ k ^^^ k = x := by
  rw [UInt8.xor_assoc, UInt8.xor_self, UInt8.xor_zero]

/-- Masking twice is not masking. -/
theorem wsMask_twice (p : Bytes) : ∀ offset, wsMask mask offset (wsMask mask offset p) = p := by
  induction p with
  | nil => exact fun _ => rfl
  | cons b p ih =>
    intro offset
    show (b ^^^ _ ^^^ _) :: wsMask mask (offset + 1) (wsMask mask (offset + 1) p) = _
    rw [ih, xor_twice]

/-- The masking of the source is that of the RFC. -/
theorem wsMask_eq (p : Bytes) : ∀ offset,
    wsMask mask offset p = p.mapIdx fun i b => b ^^^ mask (Fin.ofNat 4 (offset + i)) := by
  induction p with
  | nil => exact fun _ => rfl
  | cons b p ih =>
    intro offset
    rw [List.mapIdx_cons]
    show _ :: wsMask mask (offset + 1) p = _
    rw [ih, Nat.add_zero]
    congr 1
    refine congrArg (List.mapIdx · p) (funext fun i => ?_)
    rw [Nat.add_assoc, Nat.add_comm 1 i]

theorem key_getD (i : Nat) : mask.bytes.getD (i % 4) 0 = mask (Fin.ofNat 4 i) := by
  have hget : ∀ (k : Nat) (hk : k < 4), mask.bytes.getD k 0 = mask ⟨k, hk⟩
    | 0, _ => rfl
    | 1, _ => rfl
    | 2, _ => rfl
    | 3, _ => rfl
  exact hget (i % 4) (Nat.mod_lt i (by decide))

theorem rfc_unmask (p : Bytes) :
    ((wsMask mask 0 p).mapIdx fun i b => b ^^^ mask.bytes.getD (i % 4) 0) = p := by
  have htwice := @wsMask_twice mask p 0
  rw [wsMask_eq] at htwice
  refine Eq.trans (congrArg (List.mapIdx · _) (funext fun i => funext fun b => ?_)) htwice
  rw [key_getD, Nat.zero_add]

/-! ## Heads -/

theorem beNat_append (s t : Bytes) : beNat (s ++ t) = beNat s * 256 ^ t.length + beNat t := by
  have hfrom : ∀ (t : Bytes) (v : Nat),
      t.foldl (fun v b => v * 256 + b.toNat) v = v * 256 ^ t.length + t.foldl (fun v b => v * 256 + b.toNat) 0 := by
    intro t
    induction t with
    | nil => exact fun v => (Nat.mul_one v).symm
    | cons b t ih =>
      intro v
      rw [List.foldl_cons, List.foldl_cons, ih, ih (0 * 256 + b.toNat), List.length_cons, Nat.pow_succ]
      ring
  unfold beNat
  rw [List.foldl_append, hfrom]

/-- A number in `n` bytes, the highest first. -/
def spelled (len n : Nat) : Bytes := (List.range n).map fun i => UInt8.ofNat (len / 256 ^ (n - 1 - i))

theorem length_spelled (len n : Nat) : (spelled len n).length = n := by
  unfold spelled
  rw [List.length_map, List.length_range]

theorem beNat_spelled (len n : Nat) : beNat (spelled len n) = len % 256 ^ n := by
  unfold spelled
  induction n with
  | zero => exact (Nat.mod_one len).symm
  | succ n ih =>
    have hrest : (List.range n).map ((fun i => UInt8.ofNat (len / 256 ^ (n + 1 - 1 - i))) ∘ Nat.succ) =
        (List.range n).map fun i => UInt8.ofNat (len / 256 ^ (n - 1 - i)) := by
      refine List.map_congr_left fun i _ => ?_
      show UInt8.ofNat (len / 256 ^ (n + 1 - 1 - (i + 1))) = _
      rw [Nat.add_sub_cancel, Nat.sub_sub, Nat.add_comm 1 i]
    have hone : ∀ b : UInt8, ∀ t : Bytes, beNat (b :: t) = b.toNat * 256 ^ t.length + beNat t := by
      intro b t
      have h := beNat_append [b] t
      rw [List.singleton_append] at h
      rw [h]
      show (0 * 256 + b.toNat) * _ + _ = _
      rw [Nat.zero_mul, Nat.zero_add]
    have hmod : len % (256 ^ n * 256) = len % 256 ^ n + 256 ^ n * (len / 256 ^ n % 256) := Nat.mod_mul
    rw [List.range_succ_eq_map, List.map_cons, List.map_map, hrest, hone, ih, List.length_map, List.length_range,
      UInt8.toNat_ofNat', Nat.add_sub_cancel, Nat.sub_zero, Nat.pow_succ 256 n, hmod, Nat.add_comm, Nat.mul_comm]

/-- An extended length of either kind is read back. -/
theorem rfcLength_extended {key n len : Nat} (hkey : key = 126 ∧ n = 2 ∨ key = 127 ∧ n = 8)
    (hmin : (if key = 126 then 126 else 0x10000) ≤ len) (hfits : len < 256 ^ n) (hlen : len < 2 ^ 63)
    (s : Bytes) : rfcLength key (spelled len n ++ s) = some (len, s) := by
  have hn : (if key = 126 then 2 else 8) = n := by
    rcases hkey with ⟨rfl, rfl⟩ | ⟨rfl, rfl⟩ <;> rfl
  unfold rfcLength
  rw [if_neg (by omega)]
  dsimp only
  rw [hn, List.take_left' (length_spelled len n), List.drop_left' (length_spelled len n), beNat_spelled,
    Nat.mod_eq_of_lt hfits, List.length_append, length_spelled, if_neg (by omega), if_neg (by omega)]

/-- The head of a frame, taken apart: two bytes, the length as the second announces it, the key. -/
theorem wsHead_cases (opcode len : Nat) (hlen : len < 2 ^ 63) :
    ∃ (b1 : UInt8) (ext : Bytes), wsHead opcode len mask =
        UInt8.ofNat (0x80 + opcode % 16) :: b1 :: ext ++ mask.bytes ∧
      128 ≤ b1.toNat ∧ ∀ s, rfcLength (b1.toNat % 128) (ext ++ s) = some (len, s) := by
  unfold wsHead
  dsimp only
  by_cases hshort : len < 126
  · have hb1 : (UInt8.ofNat (0x80 + len)).toNat = 128 + len := by
      rw [UInt8.toNat_ofNat']
      exact Nat.mod_eq_of_lt (by omega)
    refine ⟨UInt8.ofNat (0x80 + len), [], by rw [if_pos hshort], by omega, fun s => ?_⟩
    have hmod : (128 + len) % 128 = len := by omega
    unfold rfcLength
    rw [hb1, hmod, if_pos hshort, List.nil_append]
  rw [if_neg hshort]
  by_cases hmid : len ≤ 0xFFFF
  · have htwo : [UInt8.ofNat (len / 256), UInt8.ofNat len] = spelled len 2 := by
      rw [show spelled len 2 = [UInt8.ofNat (len / 256 ^ 1), UInt8.ofNat (len / 256 ^ 0)] from rfl, Nat.pow_one,
        Nat.pow_zero, Nat.div_one]
    refine ⟨UInt8.ofNat (0x80 + 126), spelled len 2, by rw [if_pos hmid, ← htwo], by decide, fun s => ?_⟩
    rw [show (UInt8.ofNat (0x80 + 126)).toNat % 128 = 126 by decide]
    exact rfcLength_extended (Or.inl ⟨rfl, rfl⟩) (Nat.not_lt.mp hshort) (by omega) hlen s
  · have height : (List.range 8).map (fun i => UInt8.ofNat (len / 2 ^ (56 - 8 * i))) = spelled len 8 := by
      refine List.map_congr_left fun i hi => ?_
      have hi := List.mem_range.mp hi
      have hpow : 2 ^ (56 - 8 * i) = 256 ^ (8 - 1 - i) := by
        rw [show 256 = 2 ^ 8 from rfl, ← Nat.pow_mul]
        congr 1
        omega
      rw [hpow]
    refine ⟨UInt8.ofNat (0x80 + 127), spelled len 8, by rw [if_neg hmid, height], by decide, fun s => ?_⟩
    rw [show (UInt8.ofNat (0x80 + 127)).toNat % 128 = 127 by decide]
    exact rfcLength_extended (Or.inr ⟨rfl, rfl⟩) (Nat.lt_of_not_le hmid) (hlen.trans (by decide)) hlen s

theorem length_wsHead_ge (opcode len : Nat) : 2 ≤ (wsHead opcode len mask).length := by
  unfold wsHead
  dsimp only
  rw [List.length_append]
  exact Nat.le_trans (by decide : 2 ≤ 4) (Nat.le_add_left _ _)

/-- A frame of the client reads back as the RFC has it. -/
theorem rfcClientFrame_frameBytes {opcode : Nat} (hop : opcode < 16) (a b rest : Bytes)
    (hlen : a.length + b.length < 2 ^ 63) :
    rfcClientFrame (frameBytes opcode mask a b ++ rest) = some (⟨true, opcode, a ++ b⟩, rest) := by
  obtain ⟨b1, ext, hhead, hb1, hext⟩ := @wsHead_cases mask opcode (a.length + b.length) hlen
  have hfirst : (UInt8.ofNat (0x80 + opcode % 16)).toNat = 128 + opcode := by
    rw [UInt8.toNat_ofNat', Nat.mod_eq_of_lt hop]
    exact Nat.mod_eq_of_lt (by omega)
  have hmasked : wsMask mask 0 a ++ wsMask mask a.length b = wsMask mask 0 (a ++ b) := by
    rw [wsMask_append, Nat.zero_add]
  have hshape : frameBytes opcode mask a b ++ rest =
      UInt8.ofNat (0x80 + opcode % 16) :: b1 :: (ext ++ (mask.bytes ++ (wsMask mask 0 (a ++ b) ++ rest))) := by
    unfold frameBytes
    rw [hhead, List.append_assoc (_ :: _ :: _ ++ _), hmasked]
    simp only [List.cons_append, List.append_assoc]
  have hkey : (mask.bytes ++ (wsMask mask 0 (a ++ b) ++ rest)).take 4 = mask.bytes := rfl
  have hafter : (mask.bytes ++ (wsMask mask 0 (a ++ b) ++ rest)).drop 4 = wsMask mask 0 (a ++ b) ++ rest := rfl
  have hpl : (wsMask mask 0 (a ++ b)).length = a.length + b.length := by
    rw [length_wsMask, List.length_append]
  have htake : (wsMask mask 0 (a ++ b) ++ rest).take (a.length + b.length) = wsMask mask 0 (a ++ b) := by
    rw [← hpl, List.take_left]
  have hdrop : (mask.bytes ++ (wsMask mask 0 (a ++ b) ++ rest)).drop (4 + (a.length + b.length)) = rest := by
    rw [← List.drop_drop, hafter, ← hpl, List.drop_left]
  rw [hshape]
  unfold rfcClientFrame
  dsimp only
  rw [if_neg (by omega), hext, Option.bind_some]
  dsimp only
  rw [if_neg, hkey, hafter, htake, hdrop, rfc_unmask, hfirst]
  · have hfin : decide (128 ≤ 128 + opcode) = true := decide_eq_true (Nat.le_add_right _ _)
    have hcode : (128 + opcode) % 16 = opcode := by omega
    rw [hfin, hcode]
  · rw [List.length_append, List.length_append, hpl]
    show ¬ 4 + (_ + _) < _
    omega

/-! ## Streams of frames -/

/-- A frame the client is asked to append. -/
structure FrameOut where
  opcode : Nat
  a : Bytes
  b : Bytes
  granted : Bool
  deriving DecidableEq, Repr

/-- The frames one after the other, and those the client took. -/
def FramesOut.frames (c : FramesOut) : List FrameOut → FramesOut × List FrameOut
  | [] => (c, [])
  | f :: fs =>
    let x := c.frame f.opcode f.a f.b f.granted
    let y := x.1.frames fs
    (y.1, if x.2 then f :: y.2 else y.2)

/-- A frame is taken where memory is granted or the buffer has the room. Its bytes then stand behind what
was there, and the next frame has another key either way. -/
theorem FramesOut.frame_spec (c : FramesOut) (opcode : Nat) (a b : Bytes) (granted : Bool) :
    ((c.frame opcode a b granted).2 = true ↔
      granted = true ∨ c.tx.length + (frameBytes opcode c.key a b).length ≤ c.cap) ∧
    (c.frame opcode a b granted).1.tx =
      c.tx ++ (if (c.frame opcode a b granted).2 = true then frameBytes opcode c.key a b else []) ∧
    (c.frame opcode a b granted).1.mask = maskNext c.mask := by
  obtain ⟨need, hneed⟩ : ∃ need, need = c.tx.length + (wsHead opcode (a.length + b.length) c.key).length +
      a.length + b.length := ⟨_, rfl⟩
  have hlen : c.tx.length + (frameBytes opcode c.key a b).length = need := by
    unfold frameBytes
    simp only [List.length_append, length_wsMask]
    omega
  have hroom : (reserve c.cap need granted).isSome = true ↔ granted = true ∨ need ≤ c.cap := by
    unfold reserve
    by_cases hfit : need ≤ c.cap <;> cases granted <;> simp [hfit]
  rw [hlen, ← hroom]
  cases hr : reserve c.cap need granted with
  | none =>
    have hframe : c.frame opcode a b granted = ({ c with mask := maskNext c.mask }, false) := by
      unfold FramesOut.frame
      dsimp only
      rw [← hneed, hr]
    rw [hframe]
    exact ⟨Iff.rfl, (List.append_nil c.tx).symm, rfl⟩
  | some cap =>
    have hframe : c.frame opcode a b granted =
        (⟨c.tx ++ frameBytes opcode c.key a b, cap, maskNext c.mask⟩, true) := by
      unfold FramesOut.frame frameBytes
      dsimp only
      rw [← hneed, hr]
      simp only [List.append_assoc]
    rw [hframe]
    exact ⟨Iff.rfl, rfl, rfl⟩

theorem frameBytes_ne_nil (opcode : Nat) (a b : Bytes) : frameBytes opcode mask a b ≠ [] := by
  intro h
  have hlen := congrArg List.length h
  have hge := @length_wsHead_ge mask opcode (a.length + b.length)
  unfold frameBytes at hlen
  simp only [List.length_append, List.length_nil] at hlen
  omega

theorem rfcClientFrames_cons {f : RfcFrame} {s rest : Bytes} {k : Nat} (hne : s ≠ []) (h : rfcClientFrame s = some (f, rest)) :
    rfcClientFrames (k + 1) s = (rfcClientFrames k rest).map (f :: ·) := by
  cases s with
  | nil => exact absurd rfl hne
  | cons b s =>
    conv_lhs => unfold rfcClientFrames
    rw [h, Option.bind_some]

/-- More turns read the same frames. -/
theorem rfcClientFrames_more : ∀ {k : Nat} {s : Bytes} {fs : List RfcFrame},
    rfcClientFrames k s = some fs → rfcClientFrames (k + 1) s = some fs := by
  intro k
  induction k with
  | zero =>
    intro s fs h
    cases s with
    | nil => exact h
    | cons b s => exact absurd h.symm (Option.some_ne_none fs)
  | succ k ih =>
    intro s fs h
    cases s with
    | nil => exact h
    | cons b s =>
      unfold rfcClientFrames at h ⊢
      obtain ⟨x, hx, h⟩ := Option.bind_eq_some_iff.mp h
      obtain ⟨gs, hgs, rfl⟩ := Option.map_eq_some_iff.mp h
      rw [hx, Option.bind_some, ih hgs, Option.map_some]

/-- Where memory is granted every frame is taken. -/
theorem FramesOut.frames_granted (fs : List FrameOut) (h : ∀ f ∈ fs, f.granted = true) : ∀ (c : FramesOut),
    (c.frames fs).2 = fs := by
  induction fs with
  | nil => exact fun _ => rfl
  | cons f fs ih =>
    intro c
    have htook := (c.frame_spec f.opcode f.a f.b f.granted).1.mpr (Or.inl (h f List.mem_cons_self))
    unfold FramesOut.frames
    dsimp only
    rw [if_pos htook, ih fun g hg => h g (List.mem_cons_of_mem f hg)]

/-- What was appended reads back as what was taken. -/
theorem FramesOut.frames_stream (fs : List FrameOut)
    (hops : ∀ f ∈ fs, f.opcode < 16 ∧ f.a.length + f.b.length < 2 ^ 63) : ∀ (c : FramesOut),
    ∃ stream : Bytes, (c.frames fs).1.tx = c.tx ++ stream ∧
      rfcClientFrames fs.length stream = some ((c.frames fs).2.map fun f => ⟨true, f.opcode, f.a ++ f.b⟩) := by
  induction fs with
  | nil => exact fun c => ⟨[], (List.append_nil _).symm, rfl⟩
  | cons f fs ih =>
    intro c
    obtain ⟨hop, hlen⟩ := hops f List.mem_cons_self
    obtain ⟨stream, htx, hparse⟩ := ih (fun g hg => hops g (List.mem_cons_of_mem f hg))
      (c.frame f.opcode f.a f.b f.granted).1
    have hrun : c.frames (f :: fs) = (((c.frame f.opcode f.a f.b f.granted).1.frames fs).1,
        if (c.frame f.opcode f.a f.b f.granted).2 then f :: ((c.frame f.opcode f.a f.b f.granted).1.frames fs).2
        else ((c.frame f.opcode f.a f.b f.granted).1.frames fs).2) := rfl
    obtain ⟨-, hadded, -⟩ := c.frame_spec f.opcode f.a f.b f.granted
    cases htook : (c.frame f.opcode f.a f.b f.granted).2 with
    | true =>
      rw [htook, if_pos rfl] at hadded
      refine ⟨frameBytes f.opcode c.key f.a f.b ++ stream, ?_, ?_⟩
      · rw [hrun, htx, hadded, List.append_assoc]
      · have hread := @rfcClientFrame_frameBytes c.key _ hop f.a f.b stream hlen
        have hne : frameBytes f.opcode c.key f.a f.b ++ stream ≠ [] := fun h =>
          frameBytes_ne_nil _ _ _ (List.append_eq_nil_iff.mp h).1
        rw [List.length_cons, rfcClientFrames_cons hne hread, hparse, hrun, htook]
        rfl
    | false =>
      rw [htook, if_neg Bool.false_ne_true, List.append_nil] at hadded
      refine ⟨stream, ?_, ?_⟩
      · rw [hrun, htx, hadded]
      · rw [hrun, htook]
        exact rfcClientFrames_more hparse

/-- The frames of the client read back by the rules of RFC 6455: each gives its opcode and `a` followed
by `b`, whatever the key. A frame is appended where memory is granted or the buffer has the room, under a
key of its own, and so is a batch of datagrams. A stream of frames gives those that were taken, in order,
all of them where memory is granted. Masking is its own inverse, and in two parts it is masking the
whole. -/
theorem client_frames_round_trip :
    (∀ (mask : MaskKey) (opcode : Nat) (a b rest : Bytes), opcode < 16 → a.length + b.length < 2 ^ 63 →
      rfcClientFrame (frameBytes opcode mask a b ++ rest) = some (⟨true, opcode, a ++ b⟩, rest)) ∧
    (∀ (mask : MaskKey) (p : Bytes) (offset : Nat), wsMask mask offset (wsMask mask offset p) = p) ∧
    (∀ (mask : MaskKey) (a b : Bytes) (offset : Nat),
      wsMask mask offset (a ++ b) = wsMask mask offset a ++ wsMask mask (offset + a.length) b) ∧
    (∀ (c : FramesOut) (opcode : Nat) (a b : Bytes) (granted : Bool),
      ((c.frame opcode a b granted).2 = true ↔
        granted = true ∨ c.tx.length + (frameBytes opcode c.key a b).length ≤ c.cap) ∧
      (c.frame opcode a b granted).1.tx =
        c.tx ++ (if (c.frame opcode a b granted).2 = true then frameBytes opcode c.key a b else []) ∧
      (c.frame opcode a b granted).1.mask = maskNext c.mask) ∧
    (∀ (c : FramesOut) (batch : Bytes) (batchLen : Nat), (c.batchOut batch batchLen true).tx =
      c.tx ++ (if 2 < batchLen then frameBytes 2 c.key (batch.take batchLen) [] else [])) ∧
    ∀ (c : FramesOut) (fs : List FrameOut), (∀ f ∈ fs, f.opcode < 16 ∧ f.a.length + f.b.length < 2 ^ 63) →
      (∃ stream, (c.frames fs).1.tx = c.tx ++ stream ∧ rfcClientFrames fs.length stream =
        some ((c.frames fs).2.map fun f => ⟨true, f.opcode, f.a ++ f.b⟩)) ∧
      ((∀ f ∈ fs, f.granted = true) → (c.frames fs).2 = fs) := by
  refine ⟨fun mask opcode a b rest hop hlen => rfcClientFrame_frameBytes hop a b rest hlen,
    fun mask p offset => wsMask_twice p offset, fun mask a b offset => wsMask_append a b offset,
    FramesOut.frame_spec, fun c batch batchLen => ?_,
    fun c fs hops => ⟨FramesOut.frames_stream fs hops c, fun h => FramesOut.frames_granted fs h c⟩⟩
  obtain ⟨htook, hadded, -⟩ := c.frame_spec 2 (batch.take batchLen) [] true
  unfold FramesOut.batchOut
  by_cases htwo : 2 < batchLen
  · rw [if_pos htwo, if_pos htwo, hadded, if_pos (htook.mpr (Or.inl rfl))]
  · rw [if_neg htwo, if_neg htwo, List.append_nil]

/-- A text and a datagram's batch, on a socket that still waits for a byte. -/
theorem client_frames_round_trip_two :
    ∃ stream, (({ tx := [5], mask := 1 } : FramesOut).frames
        [⟨1, [104], [105], true⟩, ⟨2, [9, 0, 7], [], true⟩]).1.tx = [5] ++ stream ∧
      rfcClientFrames 2 stream = some [⟨true, 1, [104, 105]⟩, ⟨true, 2, [9, 0, 7]⟩] := by
  obtain ⟨⟨stream, htx, hparse⟩, hall⟩ := client_frames_round_trip.2.2.2.2.2 { tx := [5], mask := 1 }
    [⟨1, [104], [105], true⟩, ⟨2, [9, 0, 7], [], true⟩] (by decide)
  rw [hall (by decide)] at hparse
  exact ⟨stream, htx, hparse⟩

end Rant.Tunnel
