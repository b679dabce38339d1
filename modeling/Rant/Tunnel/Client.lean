import Rant.Lib.Incremental
import Rant.Tunnel.Wire
/-!
# Frames from the bridge

`src/tunnel/core.c` and `src/tunnel/runtime.c`: what the client takes out of the bytes its link read.
`i_rant_ws_frame` tells a head, `i_rant_tunnel_frames` takes every whole frame and joins the fragments of
a message, `i_rant_tunnel_read` gathers what the socket has first. The bytes read are a buffer beside the
rest of the link. A read outside them is `none`. What the client does with a message is a parameter.
-/

namespace Rant.Tunnel

open Rant.Lib

/-- `I_RANT_TUNNEL_MSG_MAX`. -/
def msgMax : Nat := 2 * 2 ^ 20

/-- `n` bytes at `i`. -/
def bytesAt (buf : Bytes) (i n : Nat) : Option Bytes :=
  if i + n ≤ buf.length then some ((buf.drop i).take n) else none

/-- `i_RantWsFrame`. -/
structure WsHead where
  opcode : Nat
  fin : Bool
  head : Nat
  len : Nat
  deriving DecidableEq, Repr

/-- What `i_rant_ws_frame` answers: 0, -1 or 1 with the head. -/
inductive WsFrame
  | short
  | malformed
  | whole (f : WsHead)
  deriving DecidableEq, Repr

/-- The end of `i_rant_ws_frame`: control frames are whole and short. -/
def wsFrameDone (b0 : UInt8) (head len : Nat) : WsFrame :=
  if 8 ≤ b0.toNat % 16 ∧ (b0.toNat < 0x80 ∨ 125 < len) then .malformed
  else .whole ⟨b0.toNat % 16, decide (0x80 ≤ b0.toNat), head, len⟩

/-- `i_rant_ws_frame`. -/
def wsFrame (buf : Bytes) : Option WsFrame :=
  if buf.length < 2 then some .short
  else
    (bytesAt buf 0 2).bind fun two =>
      let b0 := two.getD 0 0
      let b1 := two.getD 1 0
      if b0.toNat / 16 % 8 ≠ 0 then some .malformed              -- no extension was negotiated
      else if 0x80 ≤ b1.toNat then some .malformed               -- a server never masks
      else if b1.toNat = 126 then
        if buf.length < 4 then some .short
        else (bytesAt buf 2 2).map fun l => wsFrameDone b0 4 (beNat l)
      else if b1.toNat = 127 then
        if buf.length < 10 then some .short
        else
          (bytesAt buf 2 8).map fun l => if 2 ^ 62 ≤ beNat l then .malformed else wsFrameDone b0 10 (beNat l)
      else some (wsFrameDone b0 2 b1.toNat)

/-- A frame with its payload. -/
structure Frame where
  fin : Bool
  opcode : Nat
  payload : Bytes
  deriving DecidableEq, Repr

/-- `I_RANT_WS_CONT` and the others. -/
def wsCont : Nat := 0
def wsText : Nat := 1
def wsBinary : Nat := 2
def wsClose : Nat := 8
def wsPing : Nat := 9

/-- Why the link was dropped. -/
inductive Why
  | malformed
  | tooBig
  | outOfMemory
  | closed (payload : Bytes)
  | byMessage
  | ended
  deriving DecidableEq, Repr

/-- A fragmented message being joined: `msg_op`, the bytes so far and their buffer's capacity. -/
structure Joined where
  op : Nat := 0
  msg : Bytes := []
  cap : Nat := 0
  deriving DecidableEq, Repr

/-- What a frame makes the client do. -/
inductive Act
  | nothing
  | message (op : Nat) (p : Bytes)
  | pong (p : Bytes)
  | drop (why : Why)
  deriving DecidableEq, Repr

/-- The switch of `i_rant_tunnel_frames`: what the frame makes of the message being joined, and what it
has the client do. `memory` says which sizes the allocator grants. -/
def Joined.take (memory : Nat → Bool) (m : Joined) (f : Frame) : Joined × Act :=
  if f.opcode = wsText ∨ f.opcode = wsBinary then
    if f.fin then (m, .message f.opcode f.payload)
    else
      match reserve m.cap f.payload.length (memory f.payload.length) with
      | none => ({ m with op := f.opcode, msg := [] }, .drop .outOfMemory)
      | some cap => ({ op := f.opcode, msg := f.payload, cap := cap }, .nothing)
  else if f.opcode = wsCont then
    if msgMax < m.msg.length + f.payload.length then (m, .drop .tooBig)
    else
      match reserve m.cap (m.msg.length + f.payload.length) (memory (m.msg.length + f.payload.length)) with
      | none => (m, .drop .tooBig)
      | some cap =>
        if f.fin then ({ m with msg := [], cap := cap }, .message m.op (m.msg ++ f.payload))
        else ({ m with msg := m.msg ++ f.payload, cap := cap }, .nothing)
  else if f.opcode = wsPing then (m, .pong f.payload)
  else if f.opcode = wsClose then (m, .drop (.closed f.payload))
  else (m, .nothing)

/-- The link, beside the bytes it read. -/
structure Link (κ : Type) where
  app : κ
  up : Bool := true
  why : Option Why := none
  joined : Joined := {}
  delivered : List (Nat × Bytes) := []
  pongs : List Bytes := []

section

variable {κ : Type}

/-- What the client does with a message: its state after it, and whether it dropped the link. -/
abbrev Handler (κ : Type) := κ → Nat → Bytes → κ × Bool

/-- `i_rant_tunnel_drop`, what the frames see of it. -/
def Link.drop (t : Link κ) (why : Why) : Link κ :=
  { t with up := false, why := some why, joined := { t.joined with msg := [] } }

/-- `i_rant_tunnel_message`. -/
def Link.message (handle : Handler κ) (t : Link κ) (op : Nat) (p : Bytes) : Link κ :=
  if op = wsText ∨ op = wsBinary then
    let x := handle t.app op p
    let t := { t with app := x.1, delivered := t.delivered ++ [(op, p)] }
    if x.2 then t.drop .byMessage else t
  else t

/-- One frame. -/
def Link.take (handle : Handler κ) (memory : Nat → Bool) (t : Link κ) (f : Frame) : Link κ :=
  let x := t.joined.take memory f
  let t := { t with joined := x.1 }
  match x.2 with
  | .nothing => t
  | .message op p => t.message handle op p
  | .pong p => { t with pongs := t.pongs ++ [p] }
  | .drop why => t.drop why

/-- The loop of `i_rant_tunnel_frames`, from `at` on: the link and the bytes left. -/
def framesFrom (handle : Handler κ) (memory : Nat → Bool) : Nat → Link κ → Bytes → Nat → Option (Link κ × Bytes)
  | 0, _, _, _ => none
  | fuel + 1, t, rx, i =>
    if t.up = false then some (t, [])                            -- the drop left no bytes
    else
      (wsFrame (rx.drop i)).bind fun
        | .malformed => some (t.drop .malformed, [])
        | .short => some (t, rx.drop i)
        | .whole f =>
          if msgMax < f.len then some (t.drop .tooBig, [])
          else if rx.length - i < f.head + f.len then some (t, rx.drop i)
          else
            (bytesAt rx (i + f.head) f.len).bind fun p =>
              framesFrom handle memory fuel (t.take handle memory ⟨f.fin, f.opcode, p⟩) rx (i + f.head + f.len)

/-- `i_rant_tunnel_frames`. -/
def tunnelFrames (handle : Handler κ) (memory : Nat → Bool) (x : Link κ × Bytes) : Option (Link κ × Bytes) :=
  framesFrom handle memory (x.2.length + 1) x.1 x.2 0

/-- What one call of `i_rant_tunnel_read` finds: the bytes, and whether the socket then has no more for
now or is done (closed, failed, or no memory to read on). -/
structure ReadIn where
  bytes : Bytes
  done : Bool := false
  deriving DecidableEq, Repr

/-- `i_rant_tunnel_read`, past the handshake. -/
def tunnelRead (handle : Handler κ) (memory : Nat → Bool) (x : Link κ × Bytes) (r : ReadIn) :
    Option (Link κ × Bytes) :=
  if x.1.up = false then some x                                  -- nothing is read off a closed socket
  else if r.done then some (x.1.drop .ended, [])
  else tunnelFrames handle memory (x.1, x.2 ++ r.bytes)

/-- One read after the other. -/
def tunnelReads (handle : Handler κ) (memory : Nat → Bool) : Link κ × Bytes → List ReadIn → Option (Link κ × Bytes)
  | x, [] => some x
  | x, r :: rs => (tunnelRead handle memory x r).bind fun x => tunnelReads handle memory x rs

end

/-! ## Heads -/

variable {buf : Bytes}

theorem bytesAt_le {i n : Nat} (h : i + n ≤ buf.length) :
    bytesAt buf i n = some ((buf.drop i).take n) := if_pos h

theorem bytesAt_append {i n : Nat} (h : i + n ≤ buf.length) (c : Bytes) :
    bytesAt (buf ++ c) i n = bytesAt buf i n := by
  have hle : i + n ≤ (buf ++ c).length := by
    rw [List.length_append]
    omega
  rw [bytesAt_le h, bytesAt_le hle, List.drop_append_of_le_length (by omega),
    List.take_append_of_le_length (by rw [List.length_drop]; omega)]

/-- Every read of `i_rant_ws_frame` is inside the bytes. -/
theorem wsFrame_total (buf : Bytes) : ∃ r, wsFrame buf = some r := by
  unfold wsFrame
  split
  · exact ⟨_, rfl⟩
  rw [bytesAt_le (by omega), Option.bind_some]
  dsimp only
  repeat' split
  · exact ⟨_, rfl⟩
  · exact ⟨_, rfl⟩
  · exact ⟨_, rfl⟩
  · rw [bytesAt_le (by omega)]
    exact ⟨_, rfl⟩
  · exact ⟨_, rfl⟩
  · rw [bytesAt_le (by omega)]
    exact ⟨_, rfl⟩
  · exact ⟨_, rfl⟩

/-- More bytes do not change what a head said. -/
theorem wsFrame_append (h : wsFrame buf ≠ some .short) (c : Bytes) :
    wsFrame (buf ++ c) = wsFrame buf := by
  have hlen : buf.length ≤ (buf ++ c).length := by
    rw [List.length_append]
    omega
  unfold wsFrame at h ⊢
  by_cases htwo : buf.length < 2
  · rw [if_pos htwo] at h
    exact absurd rfl h
  rw [if_neg htwo] at h ⊢
  rw [if_neg (by omega), bytesAt_append (by omega)]
  rw [bytesAt_le (by omega)] at h ⊢
  simp only [Option.bind_some] at h ⊢
  generalize ((buf.drop 0).take 2) = two at h ⊢
  by_cases hrsv : (two.getD 0 0).toNat / 16 % 8 ≠ 0
  · rw [if_pos hrsv, if_pos hrsv]
  rw [if_neg hrsv] at h ⊢
  rw [if_neg hrsv]
  by_cases hmask : 0x80 ≤ (two.getD 1 0).toNat
  · rw [if_pos hmask, if_pos hmask]
  rw [if_neg hmask] at h ⊢
  rw [if_neg hmask]
  by_cases hmid : (two.getD 1 0).toNat = 126
  · rw [if_pos hmid] at h ⊢
    rw [if_pos hmid]
    by_cases hfour : buf.length < 4
    · rw [if_pos hfour] at h
      exact absurd rfl h
    rw [if_neg hfour, if_neg (by omega), bytesAt_append (by omega)]
  rw [if_neg hmid] at h ⊢
  rw [if_neg hmid]
  by_cases hlong : (two.getD 1 0).toNat = 127
  · rw [if_pos hlong] at h ⊢
    rw [if_pos hlong]
    by_cases hten : buf.length < 10
    · rw [if_pos hten] at h
      exact absurd rfl h
    rw [if_neg hten, if_neg (by omega), bytesAt_append (by omega)]
  · rw [if_neg hlong, if_neg hlong]

theorem wsFrameDone_whole {b0 : UInt8} {head len : Nat} {f : WsHead} (h : wsFrameDone b0 head len = .whole f) :
    f.head = head ∧ f.len = len := by
  unfold wsFrameDone at h
  split at h
  · exact WsFrame.noConfusion h
  · obtain rfl := WsFrame.whole.inj h
    exact ⟨rfl, rfl⟩

/-- A head stands inside the bytes. -/
theorem wsFrame_head {f : WsHead} (h : wsFrame buf = some (.whole f)) :
    2 ≤ f.head ∧ f.head ≤ buf.length := by
  unfold wsFrame at h
  split at h
  · exact WsFrame.noConfusion (Option.some.inj h)
  rw [bytesAt_le (by omega), Option.bind_some] at h
  dsimp only at h
  split at h
  · exact WsFrame.noConfusion (Option.some.inj h)
  split at h
  · exact WsFrame.noConfusion (Option.some.inj h)
  split at h
  · split at h
    · exact WsFrame.noConfusion (Option.some.inj h)
    · rw [bytesAt_le (by omega), Option.map_some] at h
      obtain ⟨hhead, -⟩ := wsFrameDone_whole (Option.some.inj h)
      omega
  split at h
  · split at h
    · exact WsFrame.noConfusion (Option.some.inj h)
    · rw [bytesAt_le (by omega), Option.map_some] at h
      replace h := Option.some.inj h
      split at h
      · exact WsFrame.noConfusion h
      · obtain ⟨hhead, -⟩ := wsFrameDone_whole h
        omega
  · obtain ⟨hhead, -⟩ := wsFrameDone_whole (Option.some.inj h)
    omega

/-! ## The frames of a stream -/

/-- What stands at the front of the bytes: the loop's own test, without its state. -/
def frontOf (b : Bytes) : Front Frame Why :=
  match wsFrame b with
  | some .malformed => .bad .malformed
  | some (.whole f) =>
    if msgMax < f.len then .bad .tooBig
    else if b.length < f.head + f.len then .more
    else .item ⟨f.fin, f.opcode, (b.drop f.head).take f.len⟩ (f.head + f.len)
  | _ => .more

variable {b : Bytes}

theorem frontOf_malformed (h : wsFrame b = some .malformed) : frontOf b = .bad .malformed := by
  unfold frontOf
  rw [h]

theorem frontOf_whole {f : WsHead} (h : wsFrame b = some (.whole f)) :
    frontOf b = if msgMax < f.len then .bad .tooBig
      else if b.length < f.head + f.len then .more
      else .item ⟨f.fin, f.opcode, (b.drop f.head).take f.len⟩ (f.head + f.len) := by
  unfold frontOf
  rw [h]

theorem frontOf_short (h : wsFrame b = some .short) : frontOf b = .more := by
  unfold frontOf
  rw [h]

theorem whole_not_short {f : WsHead}
    (h : wsFrame b = some (.whole f)) : wsFrame b ≠ some .short := by
  rw [h]
  exact fun h => WsFrame.noConfusion (Option.some.inj h)

theorem malformed_not_short (h : wsFrame b = some .malformed) : wsFrame b ≠ some .short := by
  rw [h]
  exact fun h => WsFrame.noConfusion (Option.some.inj h)

section

variable {κ : Type} (handle : Handler κ) (memory : Nat → Bool)

/-- The reader of the stream. -/
def frameReader : Reader UInt8 Frame Why (Link κ) where
  front := frontOf
  live t := t.up
  take t f := t.take handle memory f
  fault t why := t.drop why

/-- What the client reads off a stream's front stays when more follows. -/
theorem frameReader_steady : (frameReader handle memory).Steady where
  item := by
    intro b f n h
    obtain ⟨r, hr⟩ := wsFrame_total b
    cases r with
    | short => cases (frontOf_short hr).symm.trans h
    | malformed => cases (frontOf_malformed hr).symm.trans h
    | whole g =>
      obtain ⟨hhead, hin⟩ := wsFrame_head hr
      have hsplit := (frontOf_whole hr).symm.trans h
      split at hsplit
      · cases hsplit
      rename_i hbig
      split at hsplit
      · cases hsplit
      rename_i hwhole
      obtain ⟨rfl, rfl⟩ := Front.item.inj hsplit
      refine ⟨by omega, Nat.not_lt.mp hwhole, fun c => ?_⟩
      have hsame := (wsFrame_append (whole_not_short hr) c).trans hr
      show frontOf (b ++ c) = _
      rw [frontOf_whole hsame, if_neg hbig, if_neg (by rw [List.length_append]; omega),
        List.drop_append_of_le_length hin, List.take_append_of_le_length (by rw [List.length_drop]; omega)]
  bad := by
    intro b e h c
    obtain ⟨r, hr⟩ := wsFrame_total b
    cases r with
    | short => cases (frontOf_short hr).symm.trans h
    | malformed =>
      have hsame := (wsFrame_append (malformed_not_short hr) c).trans hr
      exact (frontOf_malformed hsame).trans ((frontOf_malformed hr).symm.trans h)
    | whole g =>
      have hsame := (wsFrame_append (whole_not_short hr) c).trans hr
      have hsplit := (frontOf_whole hr).symm.trans h
      show frontOf (b ++ c) = _
      rw [frontOf_whole hsame]
      split at hsplit
      · rename_i hbig
        rw [if_pos hbig]
        exact hsplit
      split at hsplit
      · cases hsplit
      · cases hsplit
  ends := fun _ _ => rfl

variable {handle memory}

/-- The loop of the source reads the bytes as the reader does, and inside them. -/
theorem framesFrom_eq (rx : Bytes) : ∀ (fuel : Nat) (t : Link κ) (i : Nat), i ≤ rx.length → rx.length - i < fuel →
    framesFrom handle memory fuel t rx i = some ((frameReader handle memory).drained t (rx.drop i)) := by
  have hR := frameReader_steady handle memory
  intro fuel
  induction fuel with
  | zero => exact fun _ _ _ h => absurd h (Nat.not_lt_zero _)
  | succ fuel ih =>
    intro t i hi hfuel
    unfold framesFrom
    cases hup : t.up with
    | false =>
      rw [if_pos rfl]
      exact congrArg some (@Reader.drained_dead _ _ _ _ (frameReader handle memory) t hup _).symm
    | true =>
      rw [if_neg (fun h => Bool.false_ne_true h.symm)]
      obtain ⟨r, hr⟩ := wsFrame_total (rx.drop i)
      rw [hr, Option.bind_some]
      cases r with
      | short =>
        exact congrArg some (@Reader.drained_more _ _ _ _ (frameReader handle memory) t _ hup (frontOf_short hr)).symm
      | malformed =>
        exact congrArg some (@Reader.drained_bad _ _ _ _ (frameReader handle memory) t _ _ hup
          (frontOf_malformed hr)).symm
      | whole f =>
        obtain ⟨hhead, hin⟩ := wsFrame_head hr
        have hfront := frontOf_whole hr
        rw [List.length_drop] at hfront hin
        dsimp only
        by_cases hbig : msgMax < f.len
        · rw [if_pos hbig] at hfront ⊢
          exact congrArg some (@Reader.drained_bad _ _ _ _ (frameReader handle memory) t _ _ hup hfront).symm
        rw [if_neg hbig] at hfront ⊢
        by_cases hpart : rx.length - i < f.head + f.len
        · rw [if_pos hpart] at hfront ⊢
          exact congrArg some (@Reader.drained_more _ _ _ _ (frameReader handle memory) t _ hup hfront).symm
        rw [if_neg hpart] at hfront ⊢
        rw [bytesAt_le (by omega), Option.bind_some, ih _ _ (by omega) (by omega),
          @Reader.Steady.drained_item _ _ _ _ _ hR t _ _ _ hup hfront, List.drop_drop, List.drop_drop, Nat.add_assoc]
        rfl

/-- `i_rant_tunnel_frames` reads inside its bytes. -/
theorem tunnelFrames_eq (x : Link κ × Bytes) :
    tunnelFrames handle memory x = some ((frameReader handle memory).drained x.1 x.2) := by
  unfold tunnelFrames
  rw [framesFrom_eq x.2 _ _ 0 (Nat.zero_le _) (by omega), List.drop_zero]

end

end Rant.Tunnel
