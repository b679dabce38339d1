import Rant.Tunnel.Batches
/-!
# What a tunnel's socket received

`src/tunnel/runtime.c`: `i_rant_tunnel_enqueue` and the queue's side of `i_rant_tunnel_recv`. Entries stand
one behind the other from `head` to `tail`. Every access is checked: `none` is one outside the buffer.
`fifo` is what a queue of datagrams does.
-/

namespace Rant.Tunnel

open Rant.Lib.Fragment (writeAt length_writeAt take_writeAt_next)

/-- The queue of a socket: `q` of `q_cap` bytes, `q_head`, `q_tail`, `q_max`. -/
structure Queue where
  buf : Bytes := []
  head : Nat := 0
  tail : Nat := 0
  max : Nat
  deriving DecidableEq, Repr

/-- An entry: `[u16 len][4 ip][u16 port][payload]`. -/
def entryBytes (d : Dgram) : Bytes :=
  leW16 (UInt16.ofNat d.data.length) ++ d.ip.toList ++ leW16 d.port ++ d.data

/-- What is held moves to the front. -/
def Queue.compacted (q : Queue) : Queue :=
  { q with buf := ((q.buf.take q.tail).drop q.head) ++ q.buf.drop (q.tail - q.head), head := 0, tail := q.tail - q.head }

/-- `i_rant_tunnel_enqueue`: the queue after it, and whether it took the datagram. `memory` is what a
larger buffer holds behind the old one, `none` where it is refused. -/
def Queue.enqueue (q : Queue) (d : Dgram) (memory : Option (Nat → UInt8)) : Option (Queue × Bool) :=
  let need := 8 + d.data.length
  let q := if q.buf.length < q.tail + need ∧ q.head ≠ 0 then q.compacted else q
  let put := fun q : Queue => (writeIn q.buf q.tail (entryBytes d)).map fun buf => ({ q with buf := buf, tail := q.tail + need }, true)
  if q.buf.length < q.tail + need then
    if q.max < q.tail + need then some (q, false)
    else
      match reserve q.buf.length (q.tail + need) memory.isSome with
      | none => some (q, false)
      | some cap => put { q with buf := q.buf ++ (List.range (cap - q.buf.length)).map (memory.getD fun _ => 0) }
  else put q

/-- What a receive gave. -/
structure Received where
  ip : Ip
  port : UInt16
  data : Bytes
  deriving DecidableEq, Repr

/-- A read of `n` bytes from `i` on. -/
def readIn (buf : Bytes) (i n : Nat) : Option Bytes := if i + n ≤ buf.length then some ((buf.drop i).take n) else none

/-- The queue's side of `i_rant_tunnel_recv` into a buffer of `cap` bytes. -/
def Queue.recv (q : Queue) (cap : Nat) : Option (Queue × Option Received) :=
  if q.head < q.tail then
    (readIn q.buf q.head 8).bind fun e =>
      let len := (leR16 (e.getD 0 0) (e.getD 1 0)).toNat
      (readIn q.buf (q.head + 8) (min len cap)).map fun data =>
        let got : Received := ⟨#v[e.getD 2 0, e.getD 3 0, e.getD 4 0, e.getD 5 0], leR16 (e.getD 6 0) (e.getD 7 0), data⟩
        let head := q.head + (8 + len)
        (if head = q.tail then { q with head := 0, tail := 0 } else { q with head := head }, some got)
  else some (q, none)

/-! ## A queue of datagrams -/

/-- What happens at a socket: a datagram arrives, and is kept or not; a receive is made. -/
inductive InEvent
  | arrived (d : Dgram) (kept memory : Bool)
  | received (cap : Nat) (got : Option Received)
  deriving DecidableEq, Repr

/-- A datagram as it is received into `cap` bytes. -/
def Dgram.cut (d : Dgram) (cap : Nat) : Received := ⟨d.ip, d.port, d.data.take cap⟩

/-- The bytes the datagrams take. -/
def held (ds : List Dgram) : Nat := (ds.map fun d => 8 + d.data.length).sum

/-- The queue behind the events, if each is one a queue that holds `max` bytes may show: datagrams are kept
at the end, one is lost only where it does not fit or there is no memory, a receive takes the first. -/
def fifo (max : Nat) : List Dgram → List InEvent → Option (List Dgram)
  | ds, [] => some ds
  | ds, .arrived d true _ :: es => fifo max (ds ++ [d]) es
  | ds, .arrived d false memory :: es =>
    if max < held ds + (8 + d.data.length) ∨ memory = false then fifo max ds es else none
  | [], .received _ got :: es => if got = none then fifo max [] es else none
  | d :: ds, .received cap got :: es => if got = some (d.cut cap) then fifo max ds es else none

@[simp] theorem fifo_nil (max : Nat) (ds : List Dgram) : fifo max ds [] = some ds := by
  cases ds <;> rfl

theorem fifo_kept (max : Nat) (ds : List Dgram) (d : Dgram) (memory : Bool) (es : List InEvent) :
    fifo max ds (.arrived d true memory :: es) = fifo max (ds ++ [d]) es := by
  cases ds <;> rfl

variable {ds : List Dgram} {d : Dgram}

theorem fifo_lost {max : Nat} {memory : Bool}
    (h : max < held ds + (8 + d.data.length) ∨ memory = false) (es : List InEvent) :
    fifo max ds (.arrived d false memory :: es) = fifo max ds es := by
  cases ds <;> exact if_pos h

theorem fifo_append (max : Nat) (es fs : List InEvent) : ∀ ds,
    fifo max ds (es ++ fs) = (fifo max ds es).bind fun ds => fifo max ds fs := by
  induction es with
  | nil =>
    intro ds
    rw [fifo_nil]
    rfl
  | cons e es ih =>
    intro ds
    rw [List.cons_append]
    cases e with
    | arrived d kept memory =>
      cases kept with
      | true =>
        rw [fifo_kept, fifo_kept]
        exact ih _
      | false =>
        by_cases hfit : max < held ds + (8 + d.data.length) ∨ memory = false
        · rw [fifo_lost hfit, fifo_lost hfit]
          exact ih ds
        have hwrong : ∀ es, fifo max ds (.arrived d false memory :: es) = none := by
          intro es
          cases ds <;> exact if_neg hfit
        rw [hwrong, hwrong]
        rfl
    | received cap got =>
      cases ds with
      | nil =>
        by_cases hgot : got = none
        · have hnone : ∀ es, fifo max [] (.received cap got :: es) = fifo max [] es := fun es => if_pos hgot
          rw [hnone, hnone]
          exact ih []
        · have hwrong : ∀ es, fifo max [] (.received cap got :: es) = none := fun es => if_neg hgot
          rw [hwrong, hwrong]
          rfl
      | cons d ds =>
        by_cases hgot : got = some (d.cut cap)
        · have hfirst : ∀ es, fifo max (d :: ds) (.received cap got :: es) = fifo max ds es := fun es => if_pos hgot
          rw [hfirst, hfirst]
          exact ih ds
        · have hwrong : ∀ es, fifo max (d :: ds) (.received cap got :: es) = none := fun es => if_neg hgot
          rw [hwrong, hwrong]
          rfl

/-! ## The queue holds its datagrams -/

/-- The queue holds `ds`, from `head` to `tail`. -/
structure Queue.Holds (q : Queue) (ds : List Dgram) : Prop where
  head : q.head ≤ q.tail
  tail : q.tail ≤ q.buf.length
  max : q.max < 2 ^ 31
  bytes : (q.buf.take q.tail).drop q.head = ds.flatMap entryBytes
  data : ∀ d ∈ ds, d.data.length < 2 ^ 16

theorem length_entryBytes (d : Dgram) : (entryBytes d).length = 8 + d.data.length := by
  obtain ⟨sock, ip, port, data⟩ := d
  obtain ⟨a, b, c, e, rfl⟩ := Ip.cases ip
  unfold entryBytes leW16
  simp only [List.length_append, List.length_cons, List.length_nil, Vector.length_toList]

theorem length_entries (ds : List Dgram) : (ds.flatMap entryBytes).length = held ds := by
  induction ds with
  | nil => rfl
  | cons d ds ih =>
    unfold held at ih ⊢
    rw [List.flatMap_cons, List.length_append, length_entryBytes, ih, List.map_cons, List.sum_cons]

variable {q : Queue}

theorem Queue.Holds.live (h : q.Holds ds) : q.tail = q.head + held ds := by
  have hlen := congrArg List.length h.bytes
  have := h.head
  have := h.tail
  rw [length_entries, List.length_drop, List.length_take] at hlen
  omega

theorem Queue.Holds.compacted (h : q.Holds ds) : q.compacted.Holds ds := by
  have hhead := h.head
  have htail := h.tail
  have hlen : ((q.buf.take q.tail).drop q.head).length = q.tail - q.head := by
    rw [List.length_drop, List.length_take]
    omega
  refine ⟨Nat.zero_le _, ?_, h.max, ?_, h.data⟩
  · unfold Queue.compacted
    dsimp only
    rw [List.length_append, hlen]
    exact Nat.le_add_right _ _
  · unfold Queue.compacted
    dsimp only
    rw [List.drop_zero, List.take_left' hlen]
    exact h.bytes

/-- A datagram written behind what is held. -/
theorem Queue.Holds.put (h : q.Holds ds) (hd : d.data.length < 2 ^ 16)
    (hroom : q.tail + (8 + d.data.length) ≤ q.buf.length) :
    ∃ buf, writeIn q.buf q.tail (entryBytes d) = some buf ∧
      Queue.Holds { q with buf := buf, tail := q.tail + (8 + d.data.length) } (ds ++ [d]) := by
  have hhead := h.head
  obtain ⟨buf, hwrite, hlen, htake⟩ := @writeIn_next q.buf _ (entryBytes d) q.tail rfl (by
    rw [length_entryBytes]
    exact hroom)
  rw [length_entryBytes] at htake
  have htl : (q.buf.take q.tail).length = q.tail := List.length_take_of_le h.tail
  refine ⟨buf, hwrite, ⟨Nat.le_trans hhead (Nat.le_add_right _ _), hlen ▸ hroom, h.max, ?_, ?_⟩⟩
  · dsimp only
    rw [htake, List.drop_append_of_le_length (by rw [htl]; exact hhead), h.bytes, List.flatMap_append, List.flatMap_singleton]
  · intro d' hd'
    obtain hd' | hd' := List.mem_append.mp hd'
    · exact h.data d' hd'
    · exact List.mem_singleton.mp hd' ▸ hd

theorem doubled_ge (need : Nat) : ∀ k c, need ≤ c * 2 ^ k → need ≤ doubled need k c := by
  intro k
  induction k with
  | zero => exact fun c h => (Nat.mul_one c) ▸ h
  | succ k ih =>
    intro c h
    unfold doubled
    split
    · refine ih (c * 2) (Nat.le_trans h (Nat.le_of_eq ?_))
      rw [Nat.mul_assoc, Nat.pow_succ, Nat.mul_comm (2 ^ k)]
    · omega

/-- A capacity that is granted does. -/
theorem reserve_ge {cap need c : Nat} (hneed : need ≤ 2 ^ 64) {granted : Bool} (h : reserve cap need granted = some c) :
    need ≤ c := by
  unfold reserve at h
  split at h
  · rename_i hle
    exact Option.some.inj h ▸ hle
  · split at h
    · rw [← Option.some.inj h]
      refine doubled_ge need 64 _ ?_
      split <;> omega
    · cases h

theorem reserve_refused {cap need : Nat} (hneed : cap < need) {granted : Bool} (h : reserve cap need granted = none) :
    granted = false := by
  unfold reserve at h
  rw [if_neg (Nat.not_le.mpr hneed)] at h
  cases granted with
  | false => rfl
  | true => cases h

/-- A larger buffer holds the same. -/
theorem Queue.Holds.grown (h : q.Holds ds) (more : Bytes) :
    Queue.Holds { q with buf := q.buf ++ more } ds := by
  refine ⟨h.head, ?_, h.max, ?_, h.data⟩
  · dsimp only
    rw [List.length_append]
    exact Nat.le_trans h.tail (Nat.le_add_right _ _)
  · dsimp only
    rw [List.take_append_of_le_length h.tail]
    exact h.bytes

/-- A datagram is kept, or does not fit, or there is no memory; nothing is written outside. -/
theorem Queue.Holds.enqueue (h : q.Holds ds)
    (hd : d.data.length < 2 ^ 16) (memory : Option (Nat → UInt8)) :
    ∃ q' kept, q.enqueue d memory = some (q', kept) ∧ q'.max = q.max ∧
      ((kept = true ∧ q'.Holds (ds ++ [d])) ∨
        (kept = false ∧ q'.Holds ds ∧ (q.max < held ds + (8 + d.data.length) ∨ memory.isSome = false))) := by
  obtain ⟨q₁, hq₁, hmax₁, h₁, hfront⟩ : ∃ q₁, (if q.buf.length < q.tail + (8 + d.data.length) ∧ q.head ≠ 0
      then q.compacted else q) = q₁ ∧ q₁.max = q.max ∧ q₁.Holds ds ∧
      (q₁.buf.length < q₁.tail + (8 + d.data.length) → q₁.head = 0) := by
    by_cases hcomp : q.buf.length < q.tail + (8 + d.data.length) ∧ q.head ≠ 0
    · exact ⟨q.compacted, if_pos hcomp, rfl, h.compacted, fun _ => rfl⟩
    · refine ⟨q, if_neg hcomp, rfl, h, fun hfull => ?_⟩
      exact Decidable.byContradiction fun hne => hcomp ⟨hfull, hne⟩
  have hlive := h₁.live
  unfold Queue.enqueue
  dsimp only
  rw [hq₁]
  by_cases hfull : q₁.buf.length < q₁.tail + (8 + d.data.length)
  · have hhead := hfront hfull
    rw [if_pos hfull]
    by_cases hover : q₁.max < q₁.tail + (8 + d.data.length)
    · rw [if_pos hover]
      refine ⟨q₁, false, rfl, hmax₁, Or.inr ⟨rfl, h₁, Or.inl ?_⟩⟩
      omega
    · rw [if_neg hover]
      cases hres : reserve q₁.buf.length (q₁.tail + (8 + d.data.length)) memory.isSome with
      | none => exact ⟨q₁, false, rfl, hmax₁, Or.inr ⟨rfl, h₁, Or.inr (reserve_refused hfull hres)⟩⟩
      | some c =>
        have hmax := h₁.max
        have hge := reserve_ge (by omega) hres
        obtain ⟨buf, hwrite, hput⟩ := (h₁.grown ((List.range (c - q₁.buf.length)).map (memory.getD fun _ => 0))).put hd (by
          dsimp only
          rw [List.length_append, List.length_map, List.length_range]
          omega)
        dsimp only at hwrite hput ⊢
        rw [hwrite, Option.map_some]
        exact ⟨_, true, rfl, hmax₁, Or.inl ⟨rfl, hput⟩⟩
  · obtain ⟨buf, hwrite, hput⟩ := h₁.put hd (Nat.not_lt.mp hfull)
    rw [if_neg hfull, hwrite, Option.map_some]
    exact ⟨_, true, rfl, hmax₁, Or.inl ⟨rfl, hput⟩⟩

/-- The head of an entry, whatever is behind it. -/
theorem entry_front (d : Dgram) (rest : Bytes) : ∃ a b c e, d.ip = #v[a, b, c, e] ∧
    entryBytes d ++ rest = UInt8.ofNat (UInt16.ofNat d.data.length).toNat ::
      UInt8.ofNat ((UInt16.ofNat d.data.length).toNat / 2 ^ 8) :: a :: b :: c :: e :: UInt8.ofNat d.port.toNat ::
      UInt8.ofNat (d.port.toNat / 2 ^ 8) :: (d.data ++ rest) := by
  obtain ⟨sock, ip, port, data⟩ := d
  obtain ⟨a, b, c, e, rfl⟩ := Ip.cases ip
  exact ⟨a, b, c, e, rfl, rfl⟩

/-- A receive where an entry stands at `head`. -/
theorem Queue.recv_front {q : Queue} {l0 l1 a b c e p0 p1 : UInt8} {rest : Bytes} (hlive : q.head < q.tail)
    (hfront : q.buf.drop q.head = l0 :: l1 :: a :: b :: c :: e :: p0 :: p1 :: rest) (cap : Nat)
    (hin : q.head + (8 + (leR16 l0 l1).toNat) ≤ q.buf.length) :
    q.recv cap = some (if q.head + (8 + (leR16 l0 l1).toNat) = q.tail then { q with head := 0, tail := 0 }
        else { q with head := q.head + (8 + (leR16 l0 l1).toNat) },
      some ⟨#v[a, b, c, e], leR16 p0 p1, (q.buf.drop (q.head + 8)).take (min (leR16 l0 l1).toNat cap)⟩) := by
  have hhead : readIn q.buf q.head 8 = some [l0, l1, a, b, c, e, p0, p1] := by
    unfold readIn
    rw [if_pos (by omega), hfront]
    rfl
  have hdata : readIn q.buf (q.head + 8) (min (leR16 l0 l1).toNat cap) =
      some ((q.buf.drop (q.head + 8)).take (min (leR16 l0 l1).toNat cap)) := if_pos (by omega)
  unfold Queue.recv
  rw [if_pos hlive, hhead, Option.bind_some]
  exact congrArg (Option.map _) hdata

/-- A receive takes the first datagram, cut. -/
theorem Queue.Holds.recv (h : q.Holds (d :: ds)) (cap : Nat) :
    ∃ q', q.recv cap = some (q', some (d.cut cap)) ∧ q'.max = q.max ∧ q'.Holds ds := by
  have hlive := h.live
  have htail := h.tail
  have hd := h.data d List.mem_cons_self
  have hheld : held (d :: ds) = 8 + d.data.length + held ds := rfl
  have hlen : (leR16 (UInt8.ofNat (UInt16.ofNat d.data.length).toNat)
      (UInt8.ofNat ((UInt16.ofNat d.data.length).toNat / 2 ^ 8))).toNat = d.data.length := by
    rw [leR16_leW16, UInt16.toNat_ofNat']
    exact Nat.mod_eq_of_lt hd
  have hbytes : (q.buf.drop q.head).take (q.tail - q.head) = entryBytes d ++ ds.flatMap entryBytes := by
    rw [← List.drop_take, h.bytes, List.flatMap_cons]
  have hall : q.buf.drop q.head = entryBytes d ++ (ds.flatMap entryBytes ++ q.buf.drop q.tail) := by
    rw [← List.take_append_drop (q.tail - q.head) (q.buf.drop q.head), hbytes, List.drop_drop, List.append_assoc]
    congr 3
    omega
  obtain ⟨a, b, c, e, hip, hfront⟩ := entry_front d (ds.flatMap entryBytes ++ q.buf.drop q.tail)
  have hpayload : q.buf.drop (q.head + 8) = d.data ++ (ds.flatMap entryBytes ++ q.buf.drop q.tail) := by
    rw [← List.drop_drop, hall, hfront]
    rfl
  have hcut : (q.buf.drop (q.head + 8)).take (min d.data.length cap) = d.data.take cap := by
    rw [hpayload, List.take_append_of_le_length (Nat.min_le_left _ _), Nat.min_comm, ← List.take_take, List.take_length]
  have hgot := @Queue.recv_front q _ _ _ _ _ _ _ _ _ (by omega) (hall.trans hfront) cap (by rw [hlen]; omega)
  rw [hlen, hcut, leR16_leW16, ← hip] at hgot
  refine ⟨_, hgot, ?_, ?_⟩
  · split <;> rfl
  · have hrest : (q.buf.take q.tail).drop (q.head + (8 + d.data.length)) = ds.flatMap entryBytes := by
      rw [← List.drop_drop, h.bytes, List.flatMap_cons, List.drop_left' (length_entryBytes d)]
    split
    · rename_i hend
      have hnone : held ds = 0 := by omega
      have hempty : ds = [] := by
        cases ds with
        | nil => rfl
        | cons d' ds' =>
          have : held (d' :: ds') = 8 + d'.data.length + held ds' := rfl
          omega
      subst hempty
      exact ⟨Nat.le_refl _, Nat.zero_le _, h.max, rfl, fun _ hd' => absurd hd' List.not_mem_nil⟩
    · exact ⟨by dsimp only; omega, h.tail, h.max, hrest, fun d' hd' => h.data d' (List.mem_cons_of_mem d hd')⟩

theorem Queue.Holds.recv_nil (h : q.Holds []) (cap : Nat) : q.recv cap = some (q, none) := by
  have hlive := h.live
  unfold Queue.recv
  rw [if_neg (by rw [hlive]; exact Nat.lt_irrefl _)]

end Rant.Tunnel
