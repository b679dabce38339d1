import Rant.Tunnel.Hash
/-!
# Batches

`src/tunnel/core.c`: a batch is two bytes and then records, each a head of fourteen bytes and the bytes of
a datagram. `nextDgram` walks one as the client does; `recordsOf` says what a string of bytes holds, the
interface of each record included.
-/

namespace Rant.Tunnel

/-- Four bytes in network order. -/
abbrev Ip := Vector UInt8 4

/-- `i_RantTunnelDgram`. -/
structure Dgram where
  sock : UInt16
  ip : Ip
  port : UInt16
  data : Bytes
  deriving DecidableEq, Repr

/-- A record: a datagram and the interface it leaves by. -/
structure Record where
  dgram : Dgram
  via : Ip
  deriving DecidableEq, Repr

/-- `i_rant_le_w16` and `i_rant_le_r16`. -/
def leW16 (v : UInt16) : Bytes := [UInt8.ofNat v.toNat, UInt8.ofNat (v.toNat / 2 ^ 8)]
def leR16 (a b : UInt8) : UInt16 := UInt16.ofNat (a.toNat + b.toNat * 2 ^ 8)

/-- `i_rant_tunnel_record`. -/
def recordHead (sock : UInt16) (ip : Ip) (port : UInt16) (via : Ip) (len : UInt16) : Bytes :=
  leW16 sock ++ ip.toList ++ leW16 port ++ via.toList ++ leW16 len

/-- The bytes of a record. -/
def Record.bytes (r : Record) : Bytes :=
  recordHead r.dgram.sock r.dgram.ip r.dgram.port r.via (UInt16.ofNat r.dgram.data.length) ++ r.dgram.data

/-- `i_rant_tunnel_next`: the datagram and where the next one starts. -/
def nextDgram (b : Bytes) (at_ : Nat) : Option (Dgram × Nat) :=
  let i := if at_ = 0 then 2 else at_
  if b.length < 2 ∨ b.getD 0 0 ≠ 9 ∨ b.length < i + 14 then none
  else
    let byte := fun j => b.getD (i + j) 0
    let l := (leR16 (byte 12) (byte 13)).toNat
    if b.length < i + 14 + l then none
    else
      some ({ sock := leR16 (byte 0) (byte 1), ip := #v[byte 2, byte 3, byte 4, byte 5], port := leR16 (byte 6) (byte 7),
              data := (b.drop (i + 14)).take l }, i + 14 + l)

/-- The walk of a batch to its end. -/
def walkFrom (b : Bytes) : Nat → Nat → List Dgram
  | 0, _ => []
  | k + 1, at_ =>
    match nextDgram b at_ with
    | none => []
    | some (d, at_) => d :: walkFrom b k at_

def walk (b : Bytes) : List Dgram := walkFrom b b.length 0

/-! ## What a batch holds -/

/-- The record in front, and the bytes behind it. -/
def recordAt : Bytes → Option (Record × Bytes)
  | s0 :: s1 :: a :: b :: c :: d :: p0 :: p1 :: v0 :: v1 :: v2 :: v3 :: l0 :: l1 :: rest =>
    let l := (leR16 l0 l1).toNat
    if rest.length < l then none
    else some (⟨⟨leR16 s0 s1, #v[a, b, c, d], leR16 p0 p1, rest.take l⟩, #v[v0, v1, v2, v3]⟩, rest.drop l)
  | _ => none

/-- Records as long as there are whole ones. -/
def recordsIn : Nat → Bytes → List Record
  | 0, _ => []
  | k + 1, s =>
    match recordAt s with
    | none => []
    | some (r, rest) => r :: recordsIn k rest

/-- The records of a batch. -/
def recordsOf : Bytes → List Record
  | 9 :: _ :: s => recordsIn s.length s
  | _ => []

/-! ## Records -/

theorem leR16_leW16 (v : UInt16) : leR16 (UInt8.ofNat v.toNat) (UInt8.ofNat (v.toNat / 2 ^ 8)) = v := by
  have hv := v.toNat_lt
  refine UInt16.toNat_inj.mp ?_
  unfold leR16
  rw [UInt16.toNat_ofNat', UInt8.toNat_ofNat', UInt8.toNat_ofNat']
  omega

/-- An address is its four bytes. -/
theorem Ip.cases (ip : Ip) : ∃ a b c d, ip = #v[a, b, c, d] := by
  refine ⟨ip[0], ip[1], ip[2], ip[3], Vector.ext fun i hi => ?_⟩
  obtain rfl | rfl | rfl | rfl : i = 0 ∨ i = 1 ∨ i = 2 ∨ i = 3 := by omega
  all_goals rfl

/-- A record reads back, whatever is behind it. -/
theorem recordAt_bytes {r : Record} (hlen : r.dgram.data.length < 2 ^ 16) (rest : Bytes) :
    recordAt (r.bytes ++ rest) = some (r, rest) := by
  obtain ⟨⟨sock, ip, port, data⟩, via⟩ := r
  obtain ⟨a, b, c, d, rfl⟩ := Ip.cases ip
  obtain ⟨v0, v1, v2, v3, rfl⟩ := Ip.cases via
  have hl : (leR16 (UInt8.ofNat (UInt16.ofNat data.length).toNat) (UInt8.ofNat ((UInt16.ofNat data.length).toNat / 2 ^ 8))).toNat =
      data.length := by
    rw [leR16_leW16, UInt16.toNat_ofNat']
    exact Nat.mod_eq_of_lt hlen
  show recordAt (UInt8.ofNat sock.toNat :: UInt8.ofNat (sock.toNat / 2 ^ 8) :: a :: b :: c :: d :: UInt8.ofNat port.toNat ::
    UInt8.ofNat (port.toNat / 2 ^ 8) :: v0 :: v1 :: v2 :: v3 :: UInt8.ofNat (UInt16.ofNat data.length).toNat ::
    UInt8.ofNat ((UInt16.ofNat data.length).toNat / 2 ^ 8) :: (data ++ rest)) = _
  unfold recordAt
  dsimp only
  rw [hl, if_neg (by rw [List.length_append]; omega), List.take_left, List.drop_left, leR16_leW16, leR16_leW16]

/-- A record takes fourteen bytes and its data. -/
theorem recordAt_length {s rest : Bytes} {r : Record} (h : recordAt s = some (r, rest)) :
    s.length = 14 + r.dgram.data.length + rest.length := by
  unfold recordAt at h
  split at h
  · rename_i l0 l1 t
    dsimp only at h
    by_cases hshort : t.length < (leR16 l0 l1).toNat
    · rw [if_pos hshort] at h
      cases h
    rw [if_neg hshort] at h
    obtain ⟨rfl, rfl⟩ := Prod.mk.inj (Option.some.inj h)
    simp only [List.length_cons, List.length_take, List.length_drop]
    omega
  · cases h

theorem recordAt_rest {s rest : Bytes} {r : Record} (h : recordAt s = some (r, rest)) :
    rest = s.drop (14 + r.dgram.data.length) := by
  unfold recordAt at h
  split at h
  · rename_i l0 l1 t
    dsimp only at h
    by_cases hshort : t.length < (leR16 l0 l1).toNat
    · rw [if_pos hshort] at h
      cases h
    rw [if_neg hshort] at h
    obtain ⟨rfl, rfl⟩ := Prod.mk.inj (Option.some.inj h)
    dsimp only
    rw [List.length_take, Nat.min_eq_left (Nat.not_lt.mp hshort), ← List.drop_drop]
    rfl
  · cases h

theorem recordAt_short {s : Bytes} (hs : s.length < 14) : recordAt s = none := by
  cases h : recordAt s with
  | none => rfl
  | some x =>
    have := recordAt_length h
    omega

theorem drop_step {b : Bytes} {i : Nat} (j : Nat) (h : i + j < b.length) :
    b.drop (i + j) = b.getD (i + j) 0 :: b.drop (i + (j + 1)) := by
  rw [List.drop_eq_getElem_cons h, List.getD_eq_getElem?_getD, List.getElem?_eq_getElem h]
  rfl

/-- The client's reader reads the record in front. -/
theorem nextDgram_eq {b : Bytes} {i : Nat} (hlen : 2 ≤ b.length) (hop : b.getD 0 0 = 9) (hi : 2 ≤ i) :
    nextDgram b i = (recordAt (b.drop i)).map fun x => (x.1.dgram, i + 14 + x.1.dgram.data.length) := by
  unfold nextDgram
  dsimp only
  rw [if_neg (Nat.ne_of_gt (Nat.lt_of_lt_of_le Nat.zero_lt_two hi))]
  by_cases hshort : b.length < i + 14
  · rw [if_pos (Or.inr (Or.inr hshort)), recordAt_short (by rw [List.length_drop]; omega)]
    rfl
  have hsplit : b.drop i = b.getD (i + 0) 0 :: b.getD (i + 1) 0 :: b.getD (i + 2) 0 :: b.getD (i + 3) 0 ::
      b.getD (i + 4) 0 :: b.getD (i + 5) 0 :: b.getD (i + 6) 0 :: b.getD (i + 7) 0 :: b.getD (i + 8) 0 ::
      b.getD (i + 9) 0 :: b.getD (i + 10) 0 :: b.getD (i + 11) 0 :: b.getD (i + 12) 0 :: b.getD (i + 13) 0 ::
      b.drop (i + 14) := by
    have h14 : i + 14 ≤ b.length := Nat.not_lt.mp hshort
    conv_lhs => rw [← Nat.add_zero i]
    rw [drop_step 0 (by omega), drop_step 1 (by omega), drop_step 2 (by omega), drop_step 3 (by omega),
      drop_step 4 (by omega), drop_step 5 (by omega), drop_step 6 (by omega), drop_step 7 (by omega),
      drop_step 8 (by omega), drop_step 9 (by omega), drop_step 10 (by omega), drop_step 11 (by omega),
      drop_step 12 (by omega), drop_step 13 (by omega)]
  rw [if_neg (not_or.mpr ⟨by omega, not_or.mpr ⟨not_not.mpr hop, hshort⟩⟩), hsplit]
  unfold recordAt
  dsimp only
  rw [List.length_drop]
  by_cases hcut : b.length < i + 14 + (leR16 (b.getD (i + 12) 0) (b.getD (i + 13) 0)).toNat
  · rw [if_pos hcut, if_pos (by omega)]
    rfl
  · rw [if_neg hcut, if_neg (by omega), Option.map_some]
    dsimp only
    rw [List.length_take, List.length_drop, Nat.min_eq_left (by omega)]

/-- What is no batch has no datagram. -/
theorem nextDgram_none {b : Bytes} (h : b.length < 2 ∨ b.getD 0 0 ≠ 9) (i : Nat) : nextDgram b i = none := by
  unfold nextDgram
  dsimp only
  rw [if_pos]
  obtain h | h := h
  · exact Or.inl h
  · exact Or.inr (Or.inl h)

/-- The reader of the client stays inside the batch and moves on, by a datagram of sixteen bits of length. -/
theorem nextDgram_moves {b : Bytes} {i j : Nat} {d : Dgram} (h : nextDgram b i = some (d, j)) :
    j ≤ b.length ∧ i + 14 ≤ j ∧ d.data.length < 2 ^ 16 := by
  unfold nextDgram at h
  dsimp only at h
  have hle : i ≤ if i = 0 then 2 else i := by
    split
    · omega
    · exact Nat.le_refl i
  generalize (if i = 0 then 2 else i) = i' at h hle
  by_cases hend : b.length < 2 ∨ b.getD 0 0 ≠ 9 ∨ b.length < i' + 14
  · rw [if_pos hend] at h
    cases h
  rw [if_neg hend] at h
  have hl16 := (leR16 (b.getD (i' + 12) 0) (b.getD (i' + 13) 0)).toNat_lt
  generalize (leR16 (b.getD (i' + 12) 0) (b.getD (i' + 13) 0)).toNat = l at h hl16
  by_cases hcut : b.length < i' + 14 + l
  · rw [if_pos hcut] at h
    cases h
  rw [if_neg hcut] at h
  obtain ⟨rfl, rfl⟩ := Prod.mk.inj (Option.some.inj h)
  refine ⟨Nat.not_lt.mp hcut, by omega, ?_⟩
  dsimp only
  rw [List.length_take]
  omega

/-! ## Walks -/

theorem walkFrom_eq {b : Bytes} (hlen : 2 ≤ b.length) (hop : b.getD 0 0 = 9) : ∀ (k i n : Nat), 2 ≤ i →
    b.length ≤ i + k → b.length ≤ i + n → walkFrom b k i = (recordsIn n (b.drop i)).map Record.dgram := by
  have hend : ∀ n i, b.length ≤ i → recordsIn n (b.drop i) = [] := by
    intro n i hi
    rw [List.drop_of_length_le hi]
    cases n with
    | zero => rfl
    | succ n => rfl
  intro k
  induction k with
  | zero =>
    intro i n _ hk _
    rw [hend n i hk]
    rfl
  | succ k ih =>
    intro i n hi hk hn
    unfold walkFrom
    rw [nextDgram_eq hlen hop hi]
    cases n with
    | zero =>
      rw [recordAt_short (by rw [List.length_drop]; omega)]
      rfl
    | succ n =>
      unfold recordsIn
      cases hrec : recordAt (b.drop i) with
      | none => rfl
      | some x =>
        have hl := recordAt_length hrec
        have hrest := recordAt_rest hrec
        rw [List.length_drop] at hl
        rw [List.drop_drop, ← Nat.add_assoc] at hrest
        rw [Option.map_some]
        dsimp only
        rw [ih _ n (by omega) (by omega) (by omega), ← hrest, List.map_cons]

theorem walk_none {b : Bytes} (h : b.length < 2 ∨ b.getD 0 0 ≠ 9) : walk b = [] := by
  unfold walk
  cases b.length with
  | zero => rfl
  | succ k =>
    unfold walkFrom
    rw [nextDgram_none h]

/-- The walk of the client yields what a batch holds, for every string of bytes. -/
theorem walk_eq (b : Bytes) : walk b = (recordsOf b).map Record.dgram := by
  have hstart : ∀ k, walkFrom b k 0 = walkFrom b k 2 := by
    intro k
    cases k with
    | zero => rfl
    | succ k => rfl
  by_cases hbatch : 2 ≤ b.length ∧ b.getD 0 0 = 9
  · unfold walk
    rw [hstart, walkFrom_eq hbatch.1 hbatch.2 b.length 2 (b.drop 2).length (Nat.le_refl _) (by omega)
      (by rw [List.length_drop]; omega)]
    obtain ⟨hlen, hop⟩ := hbatch
    match b, hlen, hop with
    | x :: y :: s, _, hop =>
      obtain rfl : x = 9 := hop
      rfl
  · have hwalk := walk_none ((not_and_or.mp hbatch).imp Nat.not_le.mp id)
    have hempty : recordsOf b = [] := by
      unfold recordsOf
      split
      · rename_i s
        exact absurd ⟨Nat.le_add_left 2 s.length, rfl⟩ hbatch
      · rfl
    rw [hwalk, hempty, List.map_nil]

/-- Records one behind the other, and what is left when no whole one follows. -/
theorem recordsIn_flatMap {rs : List Record} (hlen : ∀ r ∈ rs, r.dgram.data.length < 2 ^ 16) {rest : Bytes}
    (hrest : recordAt rest = none) : ∀ n, (rs.flatMap Record.bytes ++ rest).length ≤ n →
    recordsIn n (rs.flatMap Record.bytes ++ rest) = rs := by
  induction rs with
  | nil =>
    intro n _
    rw [List.flatMap_nil, List.nil_append]
    cases n with
    | zero => rfl
    | succ n =>
      unfold recordsIn
      rw [hrest]
  | cons r rs ih =>
    intro n hn
    have hr := hlen r List.mem_cons_self
    have hread := recordAt_bytes hr (rs.flatMap Record.bytes ++ rest)
    have hl := recordAt_length hread
    rw [List.flatMap_cons, List.append_assoc] at hn ⊢
    cases n with
    | zero => omega
    | succ n =>
      unfold recordsIn
      rw [hread]
      dsimp only
      rw [ih (fun r' hr' => hlen r' (List.mem_cons_of_mem r hr')) n (by omega)]

/-- The records of a batch that was cut short behind them. -/
theorem recordsOf_batch {rs : List Record} (hlen : ∀ r ∈ rs, r.dgram.data.length < 2 ^ 16) {rest : Bytes}
    (hrest : recordAt rest = none) (flags : UInt8) : recordsOf (9 :: flags :: (rs.flatMap Record.bytes ++ rest)) = rs :=
  recordsIn_flatMap hlen hrest _ (Nat.le_refl _)

end Rant.Tunnel
