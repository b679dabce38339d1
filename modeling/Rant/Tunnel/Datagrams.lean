import Rant.Tunnel.Inbox
/-!
# Datagrams through a tunnel

`src/tunnel/runtime.c`: the sockets of a tunnel, the batch it fills between two flushes, and the batches it
takes apart. A run is any sequence of sends, flushes, messages of the bridge and receives.

`Datagrams.Pending` is the invariant of the batch: it is empty, or it holds the records sent since
the last flush end to end behind its head. `Goes` is what a run shows: every record made is in a
batch handed on or still pending, and each socket's queue went through the events it saw
(`Seen`). Operations are shown to go one by one, and `Goes` chains.
-/

namespace Rant.Tunnel

open Rant.Lib.Fragment (writeAt length_writeAt take_writeAt_next)

/-- `I_RANT_TUNNEL_BATCH`, `I_RANT_TUNNEL_BACKLOG`. -/
def batchMax : Nat := 60000
def backlogMax : Nat := 4 * 2 ^ 20

/-- `i_RantTunnelSock`. -/
structure Sock where
  used : Bool
  bound : Bool
  sock : UInt16
  via : Ip
  q : Queue
  deriving DecidableEq, Repr

/-- `i_RantTunnel`, what its datagrams use of it. -/
structure Datagrams where
  isOpen : Bool
  socks : List Sock
  batch : Bytes
  batchLen : Nat := 0
  out : FramesOut
  deriving DecidableEq, Repr

variable (t : Datagrams)

/-- `i_rant_tunnel_sock`. -/
def Datagrams.slot (s : Nat) : Option Sock := (t.socks[s]?).filter (·.used)

/-- `i_rant_tunnel_by_number`: the place of the socket. -/
def Datagrams.byNumber (n : UInt16) : Option Nat := t.socks.findIdx? fun k => k.used && k.sock == n

/-- `i_rant_tunnel_batch_out`: the batch it hands on as a frame, if any. -/
def Datagrams.batchOut (granted : Bool) : Datagrams × List Bytes :=
  ({ t with out := t.out.batchOut t.batch t.batchLen granted, batchLen := 0 },
    if 2 < t.batchLen then [t.batch.take t.batchLen] else [])

/-- A datagram of a message: the socket it found, whether its queue kept it, whether there was memory. -/
structure Arrival where
  slot : Nat
  dgram : Dgram
  kept : Bool
  memory : Bool
  deriving DecidableEq, Repr

/-- What a step shows: the value it returns, the batches handed on, the record that was made, what the
datagrams of a message met, what a receive gave. -/
inductive Shown
  | sent (r : Int) (handed : List Bytes) (made : List Record)
  | flushed (handed : List Bytes)
  | message (arrivals : List Arrival)
  | received (slot cap : Nat) (got : Option Received)
  deriving DecidableEq, Repr

/-- `i_rant_tunnel_send`, where the datagram goes into a batch. -/
def Datagrams.append (k : Sock) (ip : Ip) (port : UInt16) (data : Bytes) (granted : Bool) :
    Option (Datagrams × List Bytes) :=
  let x := if batchMax < t.batchLen + 14 + data.length then t.batchOut granted else (t, [])
  (if x.1.batchLen = 0 then (writeIn x.1.batch 0 [9, 0]).map (·, 2) else some (x.1.batch, x.1.batchLen)).bind fun b =>
    (writeIn b.1 b.2 (recordHead k.sock ip port k.via (UInt16.ofNat data.length))).bind fun batch =>
      (writeIn batch (b.2 + 14) data).map fun batch => ({ x.1 with batch := batch, batchLen := b.2 + 14 + data.length }, x.2)

/-- `i_rant_tunnel_send`. -/
def Datagrams.send (s : Nat) (ip : Ip) (port : UInt16) (data : Bytes) (granted : Bool) : Option (Datagrams × Shown) :=
  if 0xFFFF - 14 < data.length then some (t, .sent data.length [] [])     -- no UDP datagram is this big
  else
    match t.slot s with
    | none => some (t, .sent data.length [] [])
    | some k =>
      if k.bound ∧ t.isOpen then
        if backlogMax < t.out.tx.length then some (t, .sent (-1) [] [])
        else
          (t.append k ip port data granted).map fun x => (x.1, .sent data.length x.2 [⟨⟨k.sock, ip, port, data⟩, k.via⟩])
      else some (t, .sent data.length [] [])

/-- `i_rant_tunnel_flush`. The socket takes `took` of the bytes that wait for it. -/
def Datagrams.flush (granted : Bool) (took : Nat) : Datagrams × Shown :=
  if t.isOpen then
    let x := t.batchOut granted
    ({ x.1 with out := { x.1.out with tx := x.1.out.tx.drop took } }, .flushed x.2)
  else (t, .flushed [])

/-- The loop of `i_rant_tunnel_binary` over a batch. -/
def Datagrams.messageFrom (b : Bytes) (memory : Nat → Option (Nat → UInt8)) :
    Nat → Nat → Datagrams → Option (Datagrams × List Arrival)
  | 0, _, t => some (t, [])
  | k + 1, at_, t =>
    match nextDgram b at_ with
    | none => some (t, [])
    | some (d, next) =>
      match t.byNumber d.sock with
      | none => messageFrom b memory k next t
      | some s =>
        (t.socks[s]?).bind fun sock =>
          (sock.q.enqueue d (memory at_)).bind fun x =>
            (messageFrom b memory k next { t with socks := t.socks.set s { sock with q := x.1 } }).map fun y =>
              (y.1, ⟨s, d, x.2, (memory at_).isSome⟩ :: y.2)

/-- `i_rant_tunnel_binary`. -/
def Datagrams.binary (b : Bytes) (memory : Nat → Option (Nat → UInt8)) (granted : Bool) : Option (Datagrams × Shown) :=
  if 1 ≤ b.length ∧ b.getD 0 0 = 9 then
    (Datagrams.messageFrom b memory b.length 0 t).map fun x => (x.1, .message x.2)
  else if 21 ≤ b.length ∧ b.getD 0 0 = 7 then
    some ({ t with out := (t.out.frame 2 (8 :: (b.take 5).drop 1) [] granted).1 }, .message [])
  else some (t, .message [])

/-- `i_rant_tunnel_recv`. -/
def Datagrams.recv (s cap : Nat) : Option (Datagrams × Shown) :=
  match t.slot s with
  | none => some (t, .received s cap none)
  | some k => (k.q.recv cap).map fun x => ({ t with socks := t.socks.set s { k with q := x.1 } }, .received s cap x.2)

/-- What may happen to a tunnel's datagrams. `granted` and `memory` say whether there is memory. -/
inductive DgramOp
  | send (slot : Nat) (ip : Ip) (port : UInt16) (data : Bytes) (granted : Bool)
  | flush (granted : Bool) (took : Nat)
  | binary (b : Bytes) (memory : Nat → Option (Nat → UInt8)) (granted : Bool)
  | recv (slot cap : Nat)

def Datagrams.step : DgramOp → Option (Datagrams × Shown)
  | .send s ip port data granted => t.send s ip port data granted
  | .flush granted took => some (t.flush granted took)
  | .binary b memory granted => t.binary b memory granted
  | .recv s cap => t.recv s cap

/-- A run, and what each of its steps shows. -/
def Datagrams.run : Datagrams → List DgramOp → Option (Datagrams × List Shown)
  | t, [] => some (t, [])
  | t, op :: ops => (t.step op).bind fun x => (x.1.run ops).map fun y => (y.1, x.2 :: y.2)

/-! ## What a run shows -/

def Shown.handed : Shown → List Bytes
  | .sent _ handed _ => handed
  | .flushed handed => handed
  | _ => []

def Shown.made : Shown → List Record
  | .sent _ _ made => made
  | _ => []

/-- What happens at the socket in place `s`. -/
def Shown.at (s : Nat) : Shown → List InEvent
  | .message arrivals => (arrivals.filter (·.slot = s)).map fun a => .arrived a.dgram a.kept a.memory
  | .received s' cap got => if s' = s then [.received cap got] else []
  | _ => []

def InEvent.dgram : InEvent → Option Dgram
  | .arrived d _ _ => some d
  | .received _ _ => none

def DgramOp.batch : DgramOp → List Bytes
  | .binary b _ _ => [b]
  | _ => []

/-- A tunnel that nothing was sent or received by. The numbers of its sockets differ. -/
structure Datagrams.Idle : Prop where
  batch : t.batch.length = batchMax
  batchLen : t.batchLen = 0
  distinct : ∀ {s s' : Nat} {k k' : Sock}, t.slot s = some k → t.slot s' = some k' → k.sock = k'.sock → s = s'
  queues : ∀ k ∈ t.socks, k.q.head = 0 ∧ k.q.tail = 0 ∧ k.q.max < 2 ^ 31

/-- The step puts a datagram into a batch only where it fits into an empty one. -/
def Datagrams.FitsBatch : DgramOp → Prop
  | .send s _ _ data _ =>
    data.length ≤ 0xFFFF - 14 → (∃ k, t.slot s = some k ∧ k.bound ∧ t.isOpen) → t.out.tx.length ≤ backlogMax →
      2 + 14 + data.length ≤ batchMax
  | _ => True

/-- Every step of a run does. -/
def Datagrams.AllFit : Datagrams → List DgramOp → Prop
  | _, [] => True
  | t, op :: ops => t.FitsBatch op ∧ ∀ x, t.step op = some x → x.1.AllFit ops

/-- Datagrams keep what UDP promises: the batches of a run up to its last flush hold what was sent, within
their size; each socket is a queue of what the messages held for its number. -/
def Datagrams.UdpRight (ops : List DgramOp) (granted : Bool) (took : Nat) : Prop :=
  ∃ t' shown, t.run (ops ++ [.flush granted took]) = some (t', shown) ∧
    (∀ b ∈ shown.flatMap Shown.handed, b.length ≤ batchMax) ∧
    (shown.flatMap Shown.handed).flatMap recordsOf = shown.flatMap Shown.made ∧
    (shown.flatMap Shown.handed).flatMap walk = (shown.flatMap Shown.made).map Record.dgram ∧
    ∀ s k, t.slot s = some k →
      (shown.flatMap (Shown.at s)).filterMap InEvent.dgram =
        (ops.flatMap DgramOp.batch).flatMap (fun b => (walk b).filter fun d => d.sock = k.sock) ∧
      ∃ ds, fifo k.q.max [] (shown.flatMap (Shown.at s)) = some ds

/-! ## The batch -/

/-- The records in the batch that is being filled. -/
structure Datagrams.Pending (rs : List Record) : Prop where
  size : t.batch.length = batchMax
  le : t.batchLen ≤ batchMax
  shut : t.isOpen = false → rs = []
  filled : (t.batchLen = 0 ∧ rs = []) ∨ (2 < t.batchLen ∧ t.batch.take t.batchLen = 9 :: 0 :: rs.flatMap Record.bytes)
  data : ∀ r ∈ rs, r.dgram.data.length < 2 ^ 16

variable {t}

variable {rs : List Record}

theorem recordsOf_pending (hdata : ∀ r ∈ rs, r.dgram.data.length < 2 ^ 16) :
    recordsOf (9 :: 0 :: rs.flatMap Record.bytes) = rs := by
  have h := @recordsOf_batch rs hdata [] rfl 0
  rwa [List.append_nil] at h

/-- The batch goes out with what it holds. -/
theorem Datagrams.Pending.batchOut (h : t.Pending rs) (granted : Bool) :
    ((t.batchOut granted).1.socks = t.socks ∧ (t.batchOut granted).1.isOpen = t.isOpen) ∧
    ((t.batchOut granted).1.Pending [] ∧ (t.batchOut granted).1.batchLen = 0) ∧
    (t.batchOut granted).2.flatMap recordsOf = rs ∧ ∀ b ∈ (t.batchOut granted).2, b.length ≤ batchMax := by
  unfold Datagrams.batchOut
  obtain ⟨hzero, rfl⟩ | ⟨htwo, hbytes⟩ := h.filled
  · rw [if_neg (by omega)]
    refine ⟨⟨rfl, rfl⟩, ⟨⟨h.size, Nat.zero_le _, fun _ => rfl, Or.inl ⟨rfl, rfl⟩, h.data⟩, rfl⟩, rfl, ?_⟩
    exact fun b hb => absurd hb List.not_mem_nil
  · rw [if_pos htwo]
    refine ⟨⟨rfl, rfl⟩, ⟨⟨h.size, Nat.zero_le _, fun _ => rfl, Or.inl ⟨rfl, rfl⟩, ?_⟩, rfl⟩, ?_, ?_⟩
    · exact fun r hr => absurd hr List.not_mem_nil
    · rw [List.flatMap_singleton, hbytes]
      exact recordsOf_pending h.data
    · intro b hb
      rw [List.mem_singleton.mp hb, List.length_take]
      exact Nat.le_trans (Nat.min_le_left _ _) h.le

variable {data : Bytes}

theorem length_writeIn {buf buf' : Bytes} {k : Nat} (h : writeIn buf k data = some buf') : buf'.length = buf.length := by
  unfold writeIn at h
  by_cases hfit : k + data.length ≤ buf.length
  · rw [if_pos hfit] at h
    exact Option.some.inj h ▸ length_writeAt hfit
  · rw [if_neg hfit] at h
    cases h

theorem length_recordHead (sock : UInt16) (ip : Ip) (port : UInt16) (via : Ip) (len : UInt16) :
    (recordHead sock ip port via len).length = 14 := by
  unfold recordHead leW16
  simp only [List.length_append, List.length_cons, List.length_nil, Vector.length_toList]

/-- A record behind what the batch holds, where it fits. -/
theorem Datagrams.put_fits {batch : Bytes} {n : Nat} (hsize : batch.length = batchMax)
    (hbytes : batch.take n = 9 :: 0 :: rs.flatMap Record.bytes) (r : Record)
    (hfit : n + 14 + r.dgram.data.length ≤ batchMax) :
    ∃ batch₁ batch₂, writeIn batch n (recordHead r.dgram.sock r.dgram.ip r.dgram.port r.via
        (UInt16.ofNat r.dgram.data.length)) = some batch₁ ∧ writeIn batch₁ (n + 14) r.dgram.data = some batch₂ ∧
      batch₂.length = batchMax ∧
      batch₂.take (n + 14 + r.dgram.data.length) = 9 :: 0 :: (rs ++ [r]).flatMap Record.bytes := by
  have hhead := length_recordHead r.dgram.sock r.dgram.ip r.dgram.port r.via (UInt16.ofNat r.dgram.data.length)
  obtain ⟨batch₁, hw₁, hl₁, ht₁⟩ := @writeIn_next batch _ (recordHead r.dgram.sock r.dgram.ip r.dgram.port r.via
    (UInt16.ofNat r.dgram.data.length)) n hbytes (by omega)
  rw [hhead] at ht₁
  obtain ⟨batch₂, hw₂, hl₂, ht₂⟩ := @writeIn_next batch₁ _ r.dgram.data (n + 14) ht₁ (by omega)
  refine ⟨batch₁, batch₂, hw₁, hw₂, hl₂.trans (hl₁.trans hsize), ?_⟩
  rw [ht₂, List.flatMap_append, List.flatMap_singleton]
  unfold Record.bytes
  rw [List.append_assoc, List.cons_append, List.cons_append]

/-- The batch with its two first bytes. -/
theorem Datagrams.Pending.begun (h : t.Pending rs) :
    ∃ b, (if t.batchLen = 0 then (writeIn t.batch 0 [9, 0]).map (·, 2) else some (t.batch, t.batchLen)) = some b ∧
      b.1.length = batchMax ∧ b.1.take b.2 = 9 :: 0 :: rs.flatMap Record.bytes ∧
      b.2 = if t.batchLen = 0 then 2 else t.batchLen := by
  obtain ⟨hzero, rfl⟩ | ⟨htwo, hbytes⟩ := h.filled
  · have hsize := h.size
    obtain ⟨buf, hwrite, hlen, htake⟩ := @writeIn_next t.batch [] [9, 0] 0 rfl (by
      rw [hsize]
      decide)
    rw [if_pos hzero, if_pos hzero, hwrite]
    exact ⟨(buf, 2), rfl, hlen.trans hsize, htake, rfl⟩
  · rw [if_neg (by omega), if_neg (by omega)]
    exact ⟨(t.batch, t.batchLen), rfl, h.size, hbytes, rfl⟩

/-- A datagram goes behind what the batch holds, or into an empty one. -/
theorem Datagrams.Pending.append (h : t.Pending rs) (hopen : t.isOpen = true) (k : Sock) (ip : Ip)
    (port : UInt16) (hfit : 2 + 14 + data.length ≤ batchMax) (granted : Bool) :
    ∃ x, t.append k ip port data granted = some x ∧ (x.1.socks = t.socks ∧ x.1.isOpen = t.isOpen) ∧
      (∃ rs', x.1.Pending rs' ∧ x.2.flatMap recordsOf ++ rs' = rs ++ [⟨⟨k.sock, ip, port, data⟩, k.via⟩]) ∧
      ∀ b ∈ x.2, b.length ≤ batchMax := by
  obtain ⟨x, hx, ⟨hsocks, hisOpen⟩, rs₁, hpend, hsplit, hroom, hsizes⟩ :
      ∃ x, (if batchMax < t.batchLen + 14 + data.length then t.batchOut granted else (t, [])) = x ∧
        (x.1.socks = t.socks ∧ x.1.isOpen = t.isOpen) ∧ ∃ rs₁, x.1.Pending rs₁ ∧ x.2.flatMap recordsOf ++ rs₁ = rs ∧
        x.1.batchLen + 14 + data.length ≤ batchMax ∧ ∀ b ∈ x.2, b.length ≤ batchMax := by
    by_cases hover : batchMax < t.batchLen + 14 + data.length
    · obtain ⟨hsame, ⟨hpend, hzero⟩, hrecords, hsizes⟩ := h.batchOut granted
      refine ⟨_, if_pos hover, hsame, [], hpend, ?_, by omega, hsizes⟩
      rw [List.append_nil]
      exact hrecords
    · exact ⟨_, if_neg hover, ⟨rfl, rfl⟩, rs, h, rfl, Nat.not_lt.mp hover, fun b hb => absurd hb List.not_mem_nil⟩
  obtain ⟨b, hbegun, hlen, hbytes, hn⟩ := hpend.begun
  obtain ⟨batch₁, batch₂, hw₁, hw₂, hl₂, ht₂⟩ := put_fits hlen hbytes ⟨⟨k.sock, ip, port, data⟩, k.via⟩ (by
    rw [hn]
    split
    · exact hfit
    · exact hroom)
  dsimp only at hw₁ hw₂ ht₂
  refine ⟨({ x.1 with batch := batch₂, batchLen := b.2 + 14 + data.length }, x.2), ?_, ⟨hsocks, hisOpen⟩,
    ⟨rs₁ ++ [⟨⟨k.sock, ip, port, data⟩, k.via⟩], ⟨hl₂, ?_, ?_, Or.inr ⟨?_, ht₂⟩, ?_⟩, ?_⟩, hsizes⟩
  · unfold Datagrams.append
    dsimp only
    rw [hx, hbegun, Option.bind_some, hw₁, Option.bind_some, hw₂, Option.map_some]
  · dsimp only
    rw [hn]
    split
    · exact hfit
    · exact hroom
  · intro hshut
    exact absurd ((hshut.symm.trans hisOpen).trans hopen) Bool.false_ne_true
  · show 2 < b.2 + 14 + data.length
    rw [hn]
    split <;> omega
  · intro r hr
    obtain hr | hr := List.mem_append.mp hr
    · exact hpend.data r hr
    · rw [List.mem_singleton.mp hr]
      unfold batchMax at hfit
      show data.length < 2 ^ 16
      omega
  · rw [← List.append_assoc, hsplit]

/-- A datagram that does not fit into an empty batch is written past its end. -/
theorem Datagrams.Pending.overflow (h : t.Pending rs) (k : Sock) (ip : Ip) (port : UInt16)
    (hover : batchMax < 2 + 14 + data.length)
    (granted : Bool) : t.append k ip port data granted = none := by
  obtain ⟨x, hx, rs₁, hpend⟩ :
      ∃ x, (if batchMax < t.batchLen + 14 + data.length then t.batchOut granted else (t, [])) = x ∧ ∃ rs₁, x.1.Pending rs₁ := by
    by_cases hout : batchMax < t.batchLen + 14 + data.length
    · exact ⟨_, if_pos hout, [], (h.batchOut granted).2.1.1⟩
    · exact ⟨_, if_neg hout, rs, h⟩
  obtain ⟨b, hbegun, hlen, -, hn⟩ := hpend.begun
  have htwo : 2 ≤ b.2 := by
    rw [hn]
    obtain ⟨hz, -⟩ | ⟨htwo, -⟩ := hpend.filled
    · rw [if_pos hz]
    · split
      · exact Nat.le_refl 2
      · omega
  unfold Datagrams.append
  dsimp only
  rw [hx, hbegun, Option.bind_some]
  cases hw : writeIn b.1 b.2 (recordHead k.sock ip port k.via (UInt16.ofNat data.length)) with
  | none => rfl
  | some batch =>
    have hbl := length_writeIn hw
    rw [Option.bind_some]
    unfold writeIn
    rw [if_neg (by omega)]
    rfl

/-! ## The sockets -/

/-- What each place's queue holds. -/
def Datagrams.Inboxes (t : Datagrams) (ds : Nat → List Dgram) : Prop := ∀ (s : Nat) k, t.socks[s]? = some k → k.q.Holds (ds s)

/-- What a socket keeps whatever it receives. -/
def Sock.fixed (k : Sock) : Bool × Bool × UInt16 × Ip × Nat := (k.used, k.bound, k.sock, k.via, k.q.max)

/-- The places keep their sockets. -/
def Datagrams.SameSocks (t t' : Datagrams) : Prop := t'.socks.map Sock.fixed = t.socks.map Sock.fixed

variable {t' : Datagrams}

theorem Datagrams.SameSocks.slot {t : Datagrams} (h : t.SameSocks t') (s : Nat) :
    (t'.slot s).map Sock.fixed = (t.slot s).map Sock.fixed := by
  have hat : (t'.socks[s]?).map Sock.fixed = (t.socks[s]?).map Sock.fixed := by
    rw [← List.getElem?_map, ← List.getElem?_map, h]
  have hfilter : ∀ o : Option Sock, (o.filter (·.used)).map Sock.fixed = (o.map Sock.fixed).filter (·.1) := by
    intro o
    cases o with
    | none => rfl
    | some k =>
      cases hu : k.used <;> simp [Option.filter, hu, Sock.fixed]
  unfold Datagrams.slot
  rw [hfilter, hfilter, hat]

theorem Datagrams.SameSocks.byNumber {t : Datagrams} (h : t.SameSocks t')
    (n : UInt16) : t'.byNumber n = t.byNumber n := by
  have hkey : ∀ u : Datagrams, u.byNumber n = (u.socks.map Sock.fixed).findIdx? fun x => x.1 && x.2.2.1 == n := by
    intro u
    rw [List.findIdx?_map]
    rfl
  rw [hkey, hkey, h]

variable {k : Sock} {ds : Nat → List Dgram} {s : Nat}

/-- One socket's queue changes. -/
theorem Datagrams.Inboxes.set (h : t.Inboxes ds) (hk : t.socks[s]? = some k)
    {q : Queue} {es : List Dgram} (hq : q.Holds es) (hmax : q.max = k.q.max) :
    Datagrams.Inboxes { t with socks := t.socks.set s { k with q := q } } (fun s' => if s' = s then es else ds s') ∧
      t.SameSocks { t with socks := t.socks.set s { k with q := q } } := by
  have hs := (List.getElem?_eq_some_iff.mp hk).1
  refine ⟨fun s' k' hk' => ?_, ?_⟩
  · dsimp only at hk' ⊢
    rw [List.getElem?_set] at hk'
    by_cases hsame : s = s'
    · subst hsame
      rw [if_pos rfl, if_pos hs] at hk'
      rw [if_pos rfl, ← Option.some.inj hk']
      exact hq
    · rw [if_neg hsame] at hk'
      rw [if_neg (Ne.symm hsame)]
      exact h s' k' hk'
  · show (t.socks.set s { k with q := q }).map Sock.fixed = _
    rw [List.map_set]
    refine List.ext_getElem? fun i => ?_
    rw [List.getElem?_set]
    split
    · rename_i hi
      subst hi
      rw [List.length_map, if_pos hs, List.getElem?_map, hk]
      show some (k.used, k.bound, k.sock, k.via, q.max) = some _
      rw [hmax]
      rfl
    · rfl

/-- The queue of each socket through the events it sees. -/
def Datagrams.Seen (t : Datagrams) (ds : Nat → List Dgram) (evs : Nat → List InEvent) (ds' : Nat → List Dgram) : Prop :=
  ∀ (s : Nat) k, t.slot s = some k → fifo k.q.max (ds s) (evs s) = some (ds' s)

theorem Datagrams.SameSocks.trans {t t'' : Datagrams} (h : t.SameSocks t')
    (h' : t'.SameSocks t'') : t.SameSocks t'' :=
  Eq.trans h' h

theorem Datagrams.SameSocks.max {t : Datagrams} (h : t.SameSocks t')
    (hk : t.slot s = some k) :
    ∃ k', t'.slot s = some k' ∧ k'.q.max = k.q.max := by
  have hat := h.slot s
  rw [hk, Option.map_some] at hat
  obtain ⟨k', hk', hfix⟩ := Option.map_eq_some_iff.mp hat
  exact ⟨k', hk', congrArg (·.2.2.2.2) hfix⟩

theorem Datagrams.slot_some {t : Datagrams} (h : t.slot s = some k) : t.socks[s]? = some k :=
  (Option.filter_eq_some_iff.mp h).1

theorem Datagrams.Seen.trans {t : Datagrams} {ds' ds'' : Nat → List Dgram}
    {evs evs' : Nat → List InEvent} (h : t.Seen ds evs ds') (hsame : t.SameSocks t')
    (h' : t'.Seen ds' evs' ds'') :
    t.Seen ds (fun s => evs s ++ evs' s) ds'' := by
  intro s k hk
  obtain ⟨k', hk', hmax⟩ := hsame.max hk
  rw [fifo_append, h s k hk, Option.bind_some, ← hmax]
  exact h' s k' hk'

theorem Datagrams.Seen.refl (t : Datagrams) (ds : Nat → List Dgram) : t.Seen ds (fun _ => []) ds := by
  exact fun s k _ => fifo_nil k.q.max (ds s)

theorem Datagrams.byNumber_some {t : Datagrams} {n : UInt16} (h : t.byNumber n = some s) :
    ∃ k, t.socks[s]? = some k ∧ k.used = true ∧ k.sock = n := by
  obtain ⟨hs, hk, -⟩ := List.findIdx?_eq_some_iff_getElem.mp h
  obtain ⟨hused, hnum⟩ := Bool.and_eq_true_iff.mp hk
  exact ⟨t.socks[s], List.getElem?_eq_getElem hs, hused, eq_of_beq hnum⟩

theorem Shown.message_cons (a : Arrival) (as : List Arrival) (s : Nat) :
    (Shown.message (a :: as)).at s =
      (if a.slot = s then [.arrived a.dgram a.kept a.memory] else []) ++ (Shown.message as).at s := by
  have hat : ∀ as : List Arrival, (Shown.message as).at s =
      (as.filter fun a => decide (a.slot = s)).map fun a => .arrived a.dgram a.kept a.memory := fun _ => rfl
  rw [hat, hat, List.filter_cons]
  by_cases hs : a.slot = s
  · rw [if_pos hs, if_pos (decide_eq_true hs)]
    rfl
  · rw [if_neg hs, if_neg (fun h => hs (of_decide_eq_true h))]
    rfl

/-- A datagram at one socket. -/
theorem Datagrams.Inboxes.arrive {t : Datagrams} (h : t.Inboxes ds)
    (hk : t.socks[s]? = some k) {d : Dgram} (hd : d.data.length < 2 ^ 16) (memory : Option (Nat → UInt8)) :
    ∃ x ds', k.q.enqueue d memory = some x ∧
      Datagrams.Inboxes { t with socks := t.socks.set s { k with q := x.1 } } ds' ∧
      t.SameSocks { t with socks := t.socks.set s { k with q := x.1 } } ∧
      t.Seen ds (fun s' => if s = s' then [.arrived d x.2 memory.isSome] else []) ds' := by
  obtain ⟨q', kept, henq, hmax, hcase⟩ := (h s k hk).enqueue hd memory
  obtain ⟨es, hes, hfifo⟩ : ∃ es, q'.Holds es ∧ fifo k.q.max (ds s) [.arrived d kept memory.isSome] = some es := by
    obtain ⟨rfl, hholds⟩ | ⟨rfl, hholds, hlost⟩ := hcase
    · exact ⟨_, hholds, by rw [fifo_kept, fifo_nil]⟩
    · exact ⟨_, hholds, by rw [fifo_lost hlost, fifo_nil]⟩
  obtain ⟨hin, hsame⟩ := h.set hk hes hmax
  refine ⟨(q', kept), _, henq, hin, hsame, fun s' k' hk' => ?_⟩
  dsimp only
  by_cases hs : s = s'
  · subst hs
    rw [if_pos rfl, if_pos rfl, ← Option.some.inj (hk.symm.trans (slot_some hk'))]
    exact hfifo
  · rw [if_neg hs, if_neg (Ne.symm hs)]
    exact Seen.refl t ds s' k' hk'

/-- The datagrams of a batch go to the queues of their sockets. -/
theorem Datagrams.messageFrom_seen (b : Bytes) (memory : Nat → Option (Nat → UInt8)) :
    ∀ (k at_ : Nat) (t : Datagrams) (ds : Nat → List Dgram), t.Inboxes ds →
      ∃ x ds', Datagrams.messageFrom b memory k at_ t = some x ∧ x.1 = { t with socks := x.1.socks } ∧ x.1.Inboxes ds' ∧
        t.SameSocks x.1 ∧ t.Seen ds (fun s => (Shown.message x.2).at s) ds' ∧
        ∀ s, (x.2.filter (·.slot = s)).map Arrival.dgram = (walkFrom b k at_).filter fun d => t.byNumber d.sock = some s := by
  intro k
  induction k with
  | zero =>
    intro at_ t ds h
    exact ⟨(t, []), ds, rfl, rfl, h, rfl, Seen.refl t ds, fun _ => rfl⟩
  | succ k ih =>
    intro at_ t ds h
    unfold messageFrom walkFrom
    cases hnext : nextDgram b at_ with
    | none => exact ⟨(t, []), ds, rfl, rfl, h, rfl, Seen.refl t ds, fun _ => rfl⟩
    | some x =>
      obtain ⟨d, next⟩ := x
      dsimp only
      cases hnum : t.byNumber d.sock with
      | none =>
        obtain ⟨x, ds', hrun, hrest, hin, hsame, hseen, harr⟩ := ih next t ds h
        refine ⟨x, ds', hrun, hrest, hin, hsame, hseen, fun s => ?_⟩
        rw [harr, List.filter_cons_of_neg]
        rw [hnum]
        exact fun h => Bool.false_ne_true h
      | some s =>
        obtain ⟨sock, hk, -, -⟩ := byNumber_some hnum
        obtain ⟨y, ds₁, henq, hin₁, hsame₁, hseen₁⟩ := h.arrive hk (nextDgram_moves hnext).2.2 (memory at_)
        obtain ⟨x, ds', hrun, hrest, hin, hsame, hseen, harr⟩ := ih next _ ds₁ hin₁
        dsimp only
        rw [hk, Option.bind_some, henq, Option.bind_some, hrun, Option.map_some]
        refine ⟨_, ds', rfl, hrest, hin, hsame₁.trans hsame, ?_, fun s' => ?_⟩
        · have hall := hseen₁.trans hsame₁ hseen
          exact (funext fun s' => Shown.message_cons ⟨s, d, y.2, (memory at_).isSome⟩ x.2 s') ▸ hall
        · have hrec := harr s'
          simp only [hsame₁.byNumber] at hrec
          rw [List.filter_cons, List.filter_cons, hnum]
          by_cases hs : s = s'
          · rw [if_pos (decide_eq_true hs), if_pos (decide_eq_true (congrArg some hs)), List.map_cons, hrec]
          · rw [if_neg (fun h => hs (of_decide_eq_true h)),
              if_neg (fun h => hs (Option.some.inj (of_decide_eq_true h))), hrec]

/-! ## Runs -/

/-- From one state to another over what was shown: `rs` and `ds` are in the batch and in the queues before,
`rs'` and `ds'` after. -/
structure Datagrams.Goes (t t' : Datagrams) (rs : List Record) (ds : Nat → List Dgram) (batches : List Bytes)
    (shown : List Shown) (rs' : List Record) (ds' : Nat → List Dgram) : Prop where
  pending : t'.Pending rs'
  inboxes : t'.Inboxes ds'
  same : t.SameSocks t'
  isOpen : t'.isOpen = t.isOpen
  split : rs ++ shown.flatMap Shown.made = (shown.flatMap Shown.handed).flatMap recordsOf ++ rs'
  sizes : ∀ b ∈ shown.flatMap Shown.handed, b.length ≤ batchMax
  seen : t.Seen ds (fun s => shown.flatMap (Shown.at s)) ds'
  arrivals : ∀ s, (shown.flatMap (Shown.at s)).filterMap InEvent.dgram =
    batches.flatMap fun b => (walk b).filter fun d => t.byNumber d.sock = some s

theorem Datagrams.Goes.refl (hp : t.Pending rs) (hi : t.Inboxes ds) :
    t.Goes t rs ds [] [] rs ds :=
  ⟨hp, hi, rfl, rfl, List.append_nil rs, fun _ hb => absurd hb List.not_mem_nil, Seen.refl t ds, fun _ => rfl⟩

theorem Datagrams.Goes.trans {t'' : Datagrams} {rs' rs'' : List Record}
    {ds' ds'' : Nat → List Dgram} {batches batches' : List Bytes} {shown shown' : List Shown}
    (h : t.Goes t' rs ds batches shown rs' ds')
    (h' : t'.Goes t'' rs' ds' batches' shown' rs'' ds'') :
    t.Goes t'' rs ds (batches ++ batches') (shown ++ shown') rs'' ds'' := by
  refine ⟨h'.pending, h'.inboxes, h.same.trans h'.same, h'.isOpen.trans h.isOpen, ?_, ?_, ?_, ?_⟩
  · rw [List.flatMap_append, List.flatMap_append, List.flatMap_append, ← List.append_assoc, h.split, List.append_assoc,
      h'.split, List.append_assoc]
  · intro b hb
    rw [List.flatMap_append] at hb
    exact (List.mem_append.mp hb).elim (h.sizes b) (h'.sizes b)
  · have hall := h.seen.trans h.same h'.seen
    simp only [List.flatMap_append]
    exact hall
  · intro s
    have harr := h'.arrivals s
    simp only [h.same.byNumber] at harr
    rw [List.flatMap_append, List.filterMap_append, h.arrivals, harr, List.flatMap_append]

/-- A step of a send that shows no more than its value. -/
theorem Datagrams.Goes.still (hp : t.Pending rs) (hi : t.Inboxes ds)
    (r : Int) :
    t.Goes t rs ds [] [.sent r [] []] rs ds :=
  ⟨hp, hi, rfl, rfl, List.append_nil rs, fun _ hb => absurd hb List.not_mem_nil, Seen.refl t ds, fun _ => rfl⟩

theorem Datagrams.send_goes (hp : t.Pending rs) (hi : t.Inboxes ds)
    {ip : Ip} {port : UInt16} {granted : Bool}
    (hfit : t.FitsBatch (.send s ip port data granted)) :
    ∃ x rs', t.send s ip port data granted = some x ∧ t.Goes x.1 rs ds [] [x.2] rs' ds := by
  unfold Datagrams.send
  by_cases hbig : 0xFFFF - 14 < data.length
  · exact ⟨_, rs, if_pos hbig, Goes.still hp hi _⟩
  rw [if_neg hbig]
  cases hk : t.slot s with
  | none => exact ⟨_, rs, rfl, Goes.still hp hi _⟩
  | some k =>
    dsimp only
    by_cases hup : k.bound ∧ t.isOpen
    · rw [if_pos hup]
      by_cases hback : backlogMax < t.out.tx.length
      · exact ⟨_, rs, if_pos hback, Goes.still hp hi _⟩
      have hroom := hfit (Nat.not_lt.mp hbig) ⟨k, hk, hup⟩ (Nat.not_lt.mp hback)
      obtain ⟨x, hx, ⟨hsocks, hopen⟩, ⟨rs', hpend, hsplit⟩, hsizes⟩ := hp.append hup.2 k ip port hroom granted
      rw [if_neg hback, hx, Option.map_some]
      refine ⟨_, rs', rfl, ⟨hpend, ?_, congrArg (List.map Sock.fixed) hsocks, hopen, ?_, ?_, Seen.refl t ds, fun _ => rfl⟩⟩
      · intro s' k' hk'
        exact hi s' k' (hsocks ▸ hk')
      · simp only [List.flatMap_singleton]
        exact hsplit.symm
      · intro b hb
        rw [List.flatMap_singleton] at hb
        exact hsizes b hb
    · exact ⟨_, rs, if_neg hup, Goes.still hp hi _⟩

theorem Datagrams.flush_goes (hp : t.Pending rs) (hi : t.Inboxes ds)
    (granted : Bool)
    (took : Nat) : t.Goes (t.flush granted took).1 rs ds [] [(t.flush granted took).2] [] ds := by
  unfold Datagrams.flush
  by_cases hopen : t.isOpen = true
  · obtain ⟨⟨hsocks, hisOpen⟩, ⟨hpend, -⟩, hrecords, hsizes⟩ := hp.batchOut granted
    rw [if_pos hopen]
    refine ⟨⟨hpend.size, hpend.le, hpend.shut, hpend.filled, hpend.data⟩, ?_, congrArg (List.map Sock.fixed) hsocks,
      hisOpen, ?_, ?_, Seen.refl t ds, fun _ => rfl⟩
    · intro s k hk
      exact hi s k (hsocks ▸ hk)
    · simp only [List.flatMap_singleton]
      exact (congrArg (· ++ []) hrecords.symm)
    · intro b hb
      rw [List.flatMap_singleton] at hb
      exact hsizes b hb
  · rw [if_neg hopen]
    obtain rfl := hp.shut (Bool.eq_false_iff.mpr hopen)
    exact ⟨hp, hi, rfl, rfl, rfl, fun _ hb => absurd hb List.not_mem_nil, Seen.refl t ds, fun _ => rfl⟩

theorem Datagrams.binary_goes (hp : t.Pending rs) (hi : t.Inboxes ds)
    (b : Bytes) (memory : Nat → Option (Nat → UInt8)) (granted : Bool) :
    ∃ x ds', t.binary b memory granted = some x ∧ t.Goes x.1 rs ds [b] [x.2] rs ds' := by
  unfold Datagrams.binary
  by_cases hbatch : 1 ≤ b.length ∧ b.getD 0 0 = 9
  · obtain ⟨x, ds', hrun, hrest, hin, hsame, hseen, harr⟩ := messageFrom_seen b memory b.length 0 t ds hi
    rw [if_pos hbatch, hrun, Option.map_some]
    refine ⟨_, ds', rfl, ⟨?_, hin, hsame, ?_, List.append_nil rs, fun _ hb => absurd hb List.not_mem_nil, ?_, ?_⟩⟩
    · dsimp only
      rw [hrest]
      exact ⟨hp.size, hp.le, hp.shut, hp.filled, hp.data⟩
    · dsimp only
      rw [hrest]
    · simp only [List.flatMap_singleton]
      exact hseen
    · intro s
      rw [List.flatMap_singleton, List.flatMap_singleton]
      refine Eq.trans ?_ (harr s)
      show ((x.2.filter fun a => decide (a.slot = s)).map fun a => InEvent.arrived a.dgram a.kept a.memory).filterMap _ = _
      rw [List.filterMap_map]
      exact congrFun (@List.filterMap_eq_map _ _ Arrival.dgram) _
  · have hwalk := walk_none (b := b) (by
      by_cases hlen : 1 ≤ b.length
      · exact Or.inr fun h => hbatch ⟨hlen, h⟩
      · exact Or.inl (by omega))
    have hquiet : ∀ s, ([Shown.message []].flatMap (Shown.at s)).filterMap InEvent.dgram =
        [b].flatMap fun b => (walk b).filter fun d => t.byNumber d.sock = some s := by
      intro s
      rw [List.flatMap_singleton, List.flatMap_singleton, hwalk]
      rfl
    rw [if_neg hbatch]
    by_cases hping : 21 ≤ b.length ∧ b.getD 0 0 = 7
    · exact ⟨_, ds, if_pos hping, ⟨⟨hp.size, hp.le, hp.shut, hp.filled, hp.data⟩, hi, rfl, rfl, List.append_nil rs,
        fun _ hb => absurd hb List.not_mem_nil, Seen.refl t ds, hquiet⟩⟩
    · exact ⟨_, ds, if_neg hping, ⟨hp, hi, rfl, rfl, List.append_nil rs,
        fun _ hb => absurd hb List.not_mem_nil, Seen.refl t ds, hquiet⟩⟩

theorem Datagrams.recv_goes (hp : t.Pending rs) (hi : t.Inboxes ds)
    (s cap : Nat) :
    ∃ x ds', t.recv s cap = some x ∧ t.Goes x.1 rs ds [] [x.2] rs ds' := by
  have hquiet : ∀ (got : Option Received) (s' : Nat), ([Shown.received s cap got].flatMap (Shown.at s')).filterMap
      InEvent.dgram = ([] : List Bytes).flatMap fun b => (walk b).filter fun d => t.byNumber d.sock = some s' := by
    intro got s'
    rw [List.flatMap_singleton]
    unfold Shown.at
    dsimp only
    split <;> rfl
  unfold Datagrams.recv
  cases hk : t.slot s with
  | none =>
    refine ⟨_, ds, rfl, ⟨hp, hi, rfl, rfl, List.append_nil rs, fun _ hb => absurd hb List.not_mem_nil, ?_, hquiet none⟩⟩
    intro s' k' hk'
    have hne : s ≠ s' := fun h => Option.some_ne_none k' (hk'.symm.trans (h ▸ hk))
    dsimp only
    rw [List.flatMap_singleton]
    show fifo k'.q.max (ds s') (if s = s' then _ else _) = _
    rw [if_neg hne]
    exact fifo_nil _ _
  | some k =>
    have hat := slot_some hk
    have hholds := hi s k hat
    obtain ⟨x, es, hrecv, hmax, hes, hfifo⟩ : ∃ x es, k.q.recv cap = some x ∧ x.1.max = k.q.max ∧ x.1.Holds es ∧
        fifo k.q.max (ds s) [.received cap x.2] = some es := by
      cases hds : ds s with
      | nil =>
        rw [hds] at hholds
        exact ⟨_, [], hholds.recv_nil cap, rfl, hholds, rfl⟩
      | cons d rest =>
        rw [hds] at hholds
        obtain ⟨q', hq', hmax, hrest⟩ := hholds.recv cap
        refine ⟨_, rest, hq', hmax, hrest, ?_⟩
        show (if some (d.cut cap) = some (d.cut cap) then fifo _ rest [] else none) = _
        rw [if_pos rfl, fifo_nil]
    obtain ⟨hin, hsame⟩ := hi.set hat hes hmax
    dsimp only
    rw [hrecv, Option.map_some]
    refine ⟨_, _, rfl, ⟨⟨hp.size, hp.le, hp.shut, hp.filled, hp.data⟩, hin, hsame, rfl, List.append_nil rs,
      fun _ hb => absurd hb List.not_mem_nil, ?_, hquiet x.2⟩⟩
    intro s' k' hk'
    dsimp only
    rw [List.flatMap_singleton]
    show fifo k'.q.max (ds s') (if s = s' then _ else _) = _
    by_cases hs : s = s'
    · subst hs
      rw [if_pos rfl, if_pos rfl, ← Option.some.inj (hat.symm.trans (slot_some hk'))]
      exact hfifo
    · rw [if_neg hs, if_neg (Ne.symm hs)]
      exact fifo_nil _ _

/-- One step that fits. -/
theorem Datagrams.step_goes (hp : t.Pending rs) (hi : t.Inboxes ds)
    {op : DgramOp}
    (hfit : t.FitsBatch op) : ∃ x rs' ds', t.step op = some x ∧ t.Goes x.1 rs ds op.batch [x.2] rs' ds' := by
  cases op with
  | send s ip port data granted =>
    obtain ⟨x, rs', hx, hgoes⟩ := send_goes hp hi hfit
    exact ⟨x, rs', ds, hx, hgoes⟩
  | flush granted took => exact ⟨_, [], ds, rfl, flush_goes hp hi granted took⟩
  | binary b memory granted =>
    obtain ⟨x, ds', hx, hgoes⟩ := binary_goes hp hi b memory granted
    exact ⟨x, rs, ds', hx, hgoes⟩
  | recv s cap =>
    obtain ⟨x, ds', hx, hgoes⟩ := recv_goes hp hi s cap
    exact ⟨x, rs, ds', hx, hgoes⟩

/-- One that does not writes outside. -/
theorem Datagrams.step_fits (hp : t.Pending rs) {op : DgramOp} {x : Datagrams × Shown}
    (hstep : t.step op = some x) : t.FitsBatch op := by
  cases op with
  | send s ip port data granted =>
    rintro hlen ⟨k, hk, hup⟩ hback
    refine Nat.not_lt.mp fun hover => ?_
    have hsend : t.send s ip port data granted = some x := hstep
    unfold Datagrams.send at hsend
    rw [if_neg (Nat.not_lt.mpr hlen), hk] at hsend
    dsimp only at hsend
    rw [if_pos hup, if_neg (Nat.not_lt.mpr hback), hp.overflow k ip port hover granted] at hsend
    cases hsend
  | flush _ _ => trivial
  | binary _ _ _ => trivial
  | recv _ _ => trivial

/-- A run whose steps fit. -/
theorem Datagrams.run_goes : ∀ (ops : List DgramOp) {t : Datagrams} {rs : List Record} {ds : Nat → List Dgram},
    t.Pending rs → t.Inboxes ds → t.AllFit ops →
    ∃ x rs' ds', t.run ops = some x ∧ t.Goes x.1 rs ds (ops.flatMap DgramOp.batch) x.2 rs' ds' := by
  intro ops
  induction ops with
  | nil => exact fun hp hi _ => ⟨_, _, _, rfl, Goes.refl hp hi⟩
  | cons op ops ih =>
    intro t rs ds hp hi hfit
    obtain ⟨x, rs₁, ds₁, hx, hgoes⟩ := step_goes hp hi hfit.1
    obtain ⟨y, rs', ds', hy, hgoes'⟩ := ih hgoes.pending hgoes.inboxes (hfit.2 x hx)
    refine ⟨(y.1, x.2 :: y.2), rs', ds', ?_, hgoes.trans hgoes'⟩
    unfold run
    rw [hx, Option.bind_some, hy, Option.map_some]

/-- The steps of a run that comes to its end fit. -/
theorem Datagrams.run_fits : ∀ (ops : List DgramOp) {t : Datagrams} {rs : List Record} {ds : Nat → List Dgram}
    {x : Datagrams × List Shown}, t.Pending rs → t.Inboxes ds → t.run ops = some x → t.AllFit ops := by
  intro ops
  induction ops with
  | nil => exact fun _ _ _ => trivial
  | cons op ops ih =>
    intro t rs ds x hp hi hrun
    unfold run at hrun
    obtain ⟨y, hy, hrun⟩ := Option.bind_eq_some_iff.mp hrun
    obtain ⟨z, hz, -⟩ := Option.map_eq_some_iff.mp hrun
    have hfit := step_fits hp hy
    refine ⟨hfit, fun y' hy' => ?_⟩
    obtain ⟨x', rs₁, ds₁, hx', hgoes⟩ := step_goes hp hi hfit
    obtain rfl := Option.some.inj (hy.symm.trans hy')
    obtain rfl := Option.some.inj (hx'.symm.trans hy)
    exact ih hgoes.pending hgoes.inboxes hz

theorem Datagrams.run_snoc : ∀ (ops : List DgramOp) (t : Datagrams) (op : DgramOp),
    t.run (ops ++ [op]) = (t.run ops).bind fun x => (x.1.step op).map fun y => (y.1, x.2 ++ [y.2]) := by
  intro ops
  induction ops with
  | nil =>
    intro t op
    cases h : t.step op with
    | none =>
      show (t.step op).bind _ = (t.step op).map _
      rw [h]
      rfl
    | some y =>
      show (t.step op).bind _ = (t.step op).map fun y => (y.1, [] ++ [y.2])
      rw [h]
      rfl
  | cons o ops ih =>
    intro t op
    rw [List.cons_append]
    unfold run
    cases t.step o with
    | none => rfl
    | some x =>
      rw [Option.bind_some, Option.bind_some, ih]
      cases x.1.run ops with
      | none => rfl
      | some y =>
        rw [Option.bind_some, Option.map_some, Option.bind_some]
        cases y.1.step op <;> rfl

/-! ## Datagrams over runs -/

/-- The number of a socket finds it. -/
theorem Datagrams.Idle.byNumber (h : t.Idle) (hk : t.slot s = some k) (n : UInt16) :
    t.byNumber n = some s ↔ n = k.sock := by
  constructor
  · intro hn
    obtain ⟨k', hk', -, rfl⟩ := byNumber_some hn
    rw [Option.some.inj (hk'.symm.trans (slot_some hk))]
  · rintro rfl
    cases hn : t.byNumber k.sock with
    | none =>
      have hused := (Option.filter_eq_some_iff.mp hk).2
      have hmem := List.mem_of_getElem? (slot_some hk)
      have hnone := List.findIdx?_eq_none_iff.mp hn k hmem
      rw [hused, beq_self_eq_true] at hnone
      cases hnone
    | some s' =>
      obtain ⟨k', hk', hused, hnum⟩ := byNumber_some hn
      have hslot : t.slot s' = some k' := Option.filter_eq_some_iff.mpr ⟨hk', hused⟩
      rw [h.distinct hslot hk hnum]

theorem Datagrams.Idle.start (h : t.Idle) : t.Pending [] ∧ t.Inboxes fun _ => [] := by
  refine ⟨⟨h.batch, ?_, fun _ => rfl, Or.inl ⟨h.batchLen, rfl⟩, fun r hr => absurd hr List.not_mem_nil⟩, fun s k hk => ?_⟩
  · rw [h.batchLen]
    exact Nat.zero_le _
  · obtain ⟨hhead, htail, hmax⟩ := h.queues k (List.mem_of_getElem? hk)
    refine ⟨by omega, by omega, hmax, ?_, fun d hd => absurd hd List.not_mem_nil⟩
    rw [htail, List.take_zero, List.drop_nil, List.flatMap_nil]

/-- Tunnelled datagrams keep what UDP promises in exactly the runs that put no datagram of more than 59984
bytes into a batch. -/
theorem datagrams_udp (t : Datagrams) (h : t.Idle) (ops : List DgramOp) (granted : Bool) (took : Nat) :
    t.UdpRight ops granted took ↔ t.AllFit ops := by
  obtain ⟨hp, hi⟩ := h.start
  constructor
  · rintro ⟨t', shown, hrun, -⟩
    rw [Datagrams.run_snoc] at hrun
    obtain ⟨x, hx, -⟩ := Option.bind_eq_some_iff.mp hrun
    exact Datagrams.run_fits ops hp hi hx
  · intro hfit
    obtain ⟨x, rs', ds', hx, hgoes⟩ := Datagrams.run_goes ops hp hi hfit
    have hall := hgoes.trans (Datagrams.flush_goes hgoes.pending hgoes.inboxes granted took)
    have hsplit := hall.split
    rw [List.nil_append, List.append_nil] at hsplit
    refine ⟨(x.1.flush granted took).1, _, ?_, hall.sizes, hsplit.symm, ?_, fun s k hk => ⟨?_, _, hall.seen s k hk⟩⟩
    · rw [Datagrams.run_snoc, hx]
      rfl
    · rw [hsplit, List.map_flatMap]
      exact congrArg (List.flatMap · _) (funext walk_eq)
    · rw [hall.arrivals s, List.append_nil]
      simp only [h.byNumber hk]

/-- An open link and one bound socket. -/
def oneSocket : Datagrams where
  isOpen := true
  socks := [⟨true, true, 3, #v[0, 0, 0, 0], { max := 2 ^ 20 }⟩]
  batch := List.replicate 60000 0
  out := { mask := 1 }

theorem oneSocket_idle : oneSocket.Idle where
  batch := List.length_replicate
  batchLen := rfl
  distinct := by
    have hzero : ∀ {s : Nat} {k : Sock}, oneSocket.slot s = some k → s = 0 := by
      intro s k h
      exact Nat.lt_one_iff.mp (List.getElem?_eq_some_iff.mp (Datagrams.slot_some h)).1
    intro s s' k k' h h' _
    exact (hzero h).trans (hzero h').symm
  queues := fun k hk => List.mem_singleton.mp hk ▸ ⟨rfl, rfl, by decide⟩

/-- Two datagrams go out, one comes in and is received. -/
theorem datagrams_udp_one :
    oneSocket.UdpRight [.send 0 #v[127, 0, 0, 1] 6730 [112, 105] true, .send 0 #v[127, 0, 0, 1] 6730 [] true,
      .binary [9, 0, 3, 0, 127, 0, 0, 1, 74, 26, 0, 0, 0, 0, 1, 0, 65] (fun _ => some fun _ => 0) true, .recv 0 16] true 0 := by
  refine (datagrams_udp oneSocket oneSocket_idle _ true 0).mpr
    ⟨fun _ _ _ => ?_, fun _ _ => ⟨fun _ _ _ => ?_, fun _ _ => ⟨trivial, fun _ _ => ⟨trivial, fun _ _ => trivial⟩⟩⟩⟩
  · decide
  · decide

/-- A datagram of 60000 bytes is admitted and runs over the end of the batch. -/
theorem datagrams_overflow :
    ¬oneSocket.UdpRight [.send 0 #v[127, 0, 0, 1] 6730 (List.replicate 60000 0) true] true 0 := by
  rintro ⟨t', shown, hrun, -⟩
  rw [Datagrams.run_snoc] at hrun
  obtain ⟨x, hx, -⟩ := Option.bind_eq_some_iff.mp hrun
  obtain ⟨hp, hi⟩ := oneSocket_idle.start
  have hfit : 2 + 14 + (List.replicate 60000 (0 : UInt8)).length ≤ batchMax :=
    (Datagrams.run_fits _ hp hi hx).1 (by rw [List.length_replicate]; decide) ⟨_, rfl, rfl, rfl⟩ (Nat.zero_le _)
  rw [List.length_replicate] at hfit
  exact absurd hfit (by decide)

end Rant.Tunnel
