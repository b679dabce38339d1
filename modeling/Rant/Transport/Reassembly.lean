import Rant.Transport.ReaderSlots
/-!
# Reassembly under hostile input

What a run of arbitrary DATA submessages puts into the reassembly buffers and hands up. Every
copy stays inside its buffer (`readerStepChecked_eq`), and a sample goes up only when each of
its fragments was accepted. The bytes are another matter: a fragment's place comes from its
number and the peer's fragment size and its length from the datagram, and nothing compares the
two, so a short fragment leaves whatever the buffer held before (`stale_bytes`). Where every
accepted fragment fills its place, at one size for the sample, every byte handed up is one of
them (`reassembly_integrity`).

`Ledger` is the lane with the ghost the statement is about: the fragments accepted for the
samples in the slots, by the reader's own counters, each with the size it was stored at.
-/

namespace Rant.Transport

open Rant.Lib
open Rant.Lib.Fragment (writeAt getElem?_writeAt length_writeAt)

/-! ## Copies -/

/-- `memcpy` into a buffer, `none` when it would write outside. -/
def cCopy (buf : Bytes) (off : Nat) (data : Bytes) : Option Bytes :=
  if off + data.length ≤ buf.length then some (writeAt buf off data) else none

/-- `i_rant_bit_set` in a slot's bitmap, `none` outside it. -/
def cBitSet (a : Assembly) (i : Nat) : Option (Nat → Bool) :=
  if i / 8 < a.bitmapCap then some fun j => if j = i then true else a.bitmap j else none

/-- The `memset` of a slot's bitmap, `none` when it would write outside. -/
def cBitClear (a : Assembly) (count : Nat) : Option (Nat → Bool) :=
  if (count + 7) / 8 ≤ a.bitmapCap
  then some fun i => if i < 8 * ((count + 7) / 8) then false else a.bitmap i else none

/-- `asmStart` over the checked clear. -/
def asmStartChecked (a : Assembly) (base count len : Nat) : Option Assembly :=
  (cBitClear a count).map fun bitmap =>
    { a with active := true, base := base, count := count, len := len, low := 0, bitmap := bitmap }

/-- `asmStore` over the checked copies, its offset and its guard in 32 bits. -/
def asmStoreChecked (peerFrag : Nat) (a : Assembly) (frag : Nat) (payload : Bytes) : Option Assembly :=
  let offset := frag * peerFrag % 2 ^ 32
  (if payload ≠ [] ∧ (offset + payload.length) % 2 ^ 32 ≤ a.buf.length
    then cCopy a.buf offset payload else some a.buf).bind fun buf =>
  (cBitSet a frag).map fun bitmap =>
    let low := if frag = a.low then asmFront bitmap a.count (a.count - a.low) a.low else a.low
    { a with buf := buf, bitmap := bitmap, low := low }

/-- `acceptFrag` over the checked copies. -/
def acceptFragChecked (t : Topic) (peerFrag : Nat) (sink : Sink) (x : ReaderSide) (s : Slot)
    (m : DataMsg) (now : Nat) : Option ReaderSide :=
  (if (x.r.slot s).active then some (x.r.slot s)
    else asmStartChecked (x.r.slot s) m.base m.count m.sampleLen).bind fun a =>
  if m.count ≠ a.count then some { x with r := x.r.setSlot s a }
  else
    let newFrag := !a.bitmap m.frag
    (if newFrag then asmStoreChecked peerFrag a m.frag m.payload else some a).map fun a' =>
      fragStored t sink (countFrag { x with r := x.r.setSlot s a' } m newFrag now) s m newFrag now

/-- `fitSlot` over the checked copies. -/
def fitSlotChecked (t : Topic) (peerFrag : Nat) (sink : Sink) (al : Alloc) (x : ReaderSide)
    (s : Slot) (m : DataMsg) (now : Nat) : Option ReaderSide :=
  match asmFit al (x.r.slot s) m.sampleLen m.count with
  | (a, true) => acceptFragChecked t peerFrag sink { x with r := x.r.setSlot s a } s m now
  | (a, false) =>
    let x := { x with r := x.r.setSlot s a }
    some (if s = .next then x.stat fun c => { c with fragsAhead := c.fragsAhead + 1 }
      else headTooBig t sink x m now)

/-- `readerData` over the checked copies. -/
def readerDataChecked (t : Topic) (peerFrag : Nat) (sink : Sink) (al : Alloc) (x : ReaderSide)
    (m : DataMsg) (now : Nat) : Option ReaderSide :=
  let malformed := x.stat fun c => { c with fragsMalformed := c.fragsMalformed + 1 }
  let fill := fun (x : ReaderSide) (s : Slot) =>
    fitSlotChecked t peerFrag sink al { x with r := { x.r with started := true } } s m now
  if x.r.used = false then some malformed
  else if m.count = 0 ∨ m.count ≤ m.frag ∨ m.count * peerFrag < m.sampleLen then some malformed
  else
    match readerOrderArrival t (noteAckReq t x m.ackReq) m.base m.seqno with
    | (x, .old) => some (ackOld (x.stat fun c => { c with fragsOld := c.fragsOld + 1 }))
    | (x, .gap) =>
      if x.r.next.active = false ∨ x.r.next.base = m.base then fill x .next
      else some (x.stat fun c => { c with fragsAhead := c.fragsAhead + 1 })
    | (x, .adopted) =>
      let x := x.stat fun c => { c with fragsAhead := c.fragsAhead + 1 }
      fill { x with r := { x.r with cur := { x.r.cur with active := false } } } .cur
    | (x, .inorder) =>
      if x.r.parked then some (x.stat fun c => { c with fragsDup := c.fragsDup + 1 })
      else fill x .cur

/-- `shmResolve` over the checked copy of the descriptor. -/
def shmResolveChecked (t : Topic) (sink : Sink) (al : Alloc) (x : ReaderSide) (m : ShmMsg) (now : Nat) :
    Option ReaderSide :=
  let ok := sink.onShm x.fx m.desc
  let y := x.emit (.shm m.base m.count m.desc ok)
  if ¬ 0 < ok ∧ ok < 0 ∧ t.reliable then
    match asmFit al y.r.cur shmDescBytes 1 with
    | (a, true) => (cCopy a.buf 0 m.desc).map fun buf =>
      { y with r := { y.r with
        cur := { a with buf := buf, base := m.base, count := m.count }, parked := true, parkedShm := true } }
    | (a, false) => some (shmFailed t { y with r := { y.r with cur := a } } m.base m.count)
  else some (shmResolve t sink al x m now)

/-- `readerShm` over the checked copy. -/
def readerShmChecked (t : Topic) (sink : Sink) (al : Alloc) (x : ReaderSide) (m : ShmMsg) (now : Nat) :
    Option ReaderSide :=
  if x.r.used = false ∨ m.count = 0 then some x
  else
    let x := noteAckReq t x m.ackReq
    if x.r.parked then some (x.stat fun c => { c with fragsAhead := c.fragsAhead + 1 })
    else
      match readerOrderArrival t x m.base (m.base + m.count - 1) with
      | (x, .old) => some (ackOld x)
      | (x, .gap) => some x
      | (x, _) =>
        let r := { x.r with started := true, cur := { x.r.cur with active := false } }
        let x := { x with r := r }
        let x :=
          if r.rttProbe ∧ m.base ≤ r.rttProbeSeq ∧ r.rttProbeSeq < m.base + m.count
          then endProbe x now else x
        shmResolveChecked t sink al x m now

/-- One event over the checked copies. The other events copy nothing. -/
def readerStepChecked (t : Topic) (l : ReaderLane) : ReaderEvent → Option ReaderLane
  | .data sink al m now => (readerDataChecked t l.peerFrag sink al l.side m now).map fun x =>
      { l with side := x }
  | .shm sink al m now => (readerShmChecked t sink al l.side m now).map fun x => { l with side := x }
  | e => some (readerStep t l e)

/-- The fields of an event fit their types on the wire. -/
def ReaderEvent.Typed : ReaderEvent → Prop
  | .data _ _ m _ => m.frag < 2 ^ 16 ∧ m.count < 2 ^ 16 ∧ m.payload.length < 2 ^ 16
  | .shm _ _ m _ => m.desc.length = shmDescBytes
  | .setFrag peerFrag => peerFrag < 2 ^ 16
  | _ => True

variable {t : Topic}

variable {a : Assembly}

theorem asmStartChecked_eq {base count len : Nat} (h : (count + 7) / 8 ≤ a.bitmapCap) :
    asmStartChecked a base count len = some (asmStart a base count len) := by
  unfold asmStartChecked cBitClear
  rw [if_pos h]
  rfl

variable {F frag : Nat}

theorem asmStoreChecked_eq {payload : Bytes} (hF : F < 2 ^ 16)
    (hfrag : frag + 1 < 2 ^ 16) (hlen : payload.length < 2 ^ 16) (hbit : frag / 8 < a.bitmapCap) :
    asmStoreChecked F a frag payload = some (asmStore F a frag payload) := by
  have hmul : frag * F ≤ (2 ^ 16 - 2) * (2 ^ 16 - 1) := Nat.mul_le_mul (by omega) (by omega)
  have hoff : frag * F % 2 ^ 32 = frag * F := Nat.mod_eq_of_lt (by omega)
  have hend : (frag * F + payload.length) % 2 ^ 32 = frag * F + payload.length :=
    Nat.mod_eq_of_lt (by omega)
  unfold asmStoreChecked asmStore
  dsimp only
  rw [hoff, hend]
  by_cases hcopy : payload ≠ [] ∧ frag * F + payload.length ≤ a.buf.length
  · rw [if_pos hcopy]
    unfold cCopy cBitSet
    rw [if_pos hcopy.2, Option.bind_some, if_pos hbit, Option.map_some, if_pos hcopy]
  · rw [if_neg hcopy, Option.bind_some]
    unfold cBitSet
    rw [if_pos hbit, Option.map_some, if_neg hcopy]

variable {now : Nat}

variable {sink : Sink} {x : ReaderSide} {m : DataMsg}

theorem acceptFragChecked_eq {s : Slot}
    (hF : F < 2 ^ 16) (hfrag : m.frag < m.count) (hcount : m.count < 2 ^ 16)
    (hlen : m.payload.length < 2 ^ 16) (hbits : (m.count + 7) / 8 ≤ (x.r.slot s).bitmapCap) :
    acceptFragChecked t F sink x s m now = some (acceptFrag t F sink x s m now) := by
  obtain ⟨a, ha⟩ : ∃ a, a = if (x.r.slot s).active then x.r.slot s
      else asmStart (x.r.slot s) m.base m.count m.sampleLen := ⟨_, rfl⟩
  have hopen : (if (x.r.slot s).active then some (x.r.slot s)
      else asmStartChecked (x.r.slot s) m.base m.count m.sampleLen) = some a := by
    rw [ha]
    split
    next => rfl
    next => exact asmStartChecked_eq hbits
  have hcap : a.bitmapCap = (x.r.slot s).bitmapCap := by
    rw [ha]
    split <;> rfl
  unfold acceptFragChecked acceptFrag
  dsimp only
  rw [hopen, Option.bind_some, ← ha]
  by_cases hsame : m.count ≠ a.count
  · rw [if_pos hsame, if_pos hsame]
  rw [if_neg hsame, if_neg hsame]
  cases hnew : !a.bitmap m.frag with
  | false => rfl
  | true =>
    simp only [if_true]
    rw [asmStoreChecked_eq hF (by omega) hlen (by omega), Option.map_some]

variable {al : Alloc}

theorem fitSlotChecked_eq {s : Slot} (hF : F < 2 ^ 16)
    (hfrag : m.frag < m.count) (hcount : m.count < 2 ^ 16) (hlen : m.payload.length < 2 ^ 16) :
    fitSlotChecked t F sink al x s m now = some (fitSlot t F sink al x s m now) := by
  have hspec := asmFit_spec al (x.r.slot s) m.sampleLen m.count
  unfold fitSlotChecked fitSlot
  obtain ⟨⟨a, fits⟩, hfit⟩ : ∃ p, asmFit al (x.r.slot s) m.sampleLen m.count = p := ⟨_, rfl⟩
  rw [hfit] at hspec ⊢
  cases fits with
  | false => rfl
  | true =>
    refine acceptFragChecked_eq hF hfrag hcount hlen ?_
    rw [slot_setSlot]
    exact (hspec.2.2 rfl).2

/-- A DATA with any fields copies nothing past a buffer. -/
theorem readerDataChecked_eq (hF : F < 2 ^ 16)
    (hcount : m.count < 2 ^ 16) (hlen : m.payload.length < 2 ^ 16) :
    readerDataChecked t F sink al x m now = some (readerData t F sink al x m now) := by
  unfold readerDataChecked readerData
  dsimp only
  by_cases hu : x.r.used = false
  · rw [if_pos hu, if_pos hu]
  rw [if_neg hu, if_neg hu]
  by_cases hbad : m.count = 0 ∨ m.count ≤ m.frag ∨ m.count * F < m.sampleLen
  · rw [if_pos hbad, if_pos hbad]
  rw [if_neg hbad, if_neg hbad]
  have hfill : ∀ (y : ReaderSide) (s : Slot),
      fitSlotChecked t F sink al { y with r := { y.r with started := true } } s m now =
        some (fillSlot t F sink al y s m now) := by
    intro y s
    exact fitSlotChecked_eq hF (by omega) hcount hlen
  obtain ⟨⟨y, o⟩, harr⟩ : ∃ p, readerOrderArrival t (noteAckReq t x m.ackReq) m.base m.seqno = p :=
    ⟨_, rfl⟩
  rw [harr]
  cases o with
  | old => rfl
  | gap =>
    dsimp only
    rw [hfill]
    split <;> rfl
  | adopted =>
    exact hfill { y with
      stats := { y.stats with fragsAhead := y.stats.fragsAhead + 1 }
      r := { y.r with cur := { y.r.cur with active := false } } } .cur
  | inorder =>
    dsimp only
    rw [hfill]
    split <;> rfl

/-- The descriptor of a parked sample fits the head's buffer. -/
theorem shmResolveChecked_eq {m : ShmMsg}
    (hdesc : m.desc.length = shmDescBytes) :
    shmResolveChecked t sink al x m now = some (shmResolve t sink al x m now) := by
  unfold shmResolveChecked
  dsimp only
  split
  next h =>
    obtain ⟨hpos, hneg, ht⟩ := h
    have hspec := asmFit_spec al x.r.cur shmDescBytes 1
    unfold shmResolve
    dsimp only
    rw [if_neg hpos, if_pos hneg, if_neg (not_not_intro ht)]
    obtain ⟨⟨a, fits⟩, hfit⟩ : ∃ p, asmFit al x.r.cur shmDescBytes 1 = p := ⟨_, rfl⟩
    have hfit' : asmFit al (x.emit (.shm m.base m.count m.desc (sink.onShm x.fx m.desc))).r.cur
        shmDescBytes 1 = (a, fits) := hfit
    rw [hfit] at hspec
    rw [hfit']
    cases fits with
    | false => rfl
    | true =>
      have hroom : 0 + m.desc.length ≤ a.buf.length := by
        rw [Nat.zero_add, hdesc]
        exact (hspec.2.2 rfl).1
      dsimp only
      unfold cCopy
      rw [if_pos hroom]
      rfl
  next => rfl

theorem readerShmChecked_eq {m : ShmMsg}
    (hdesc : m.desc.length = shmDescBytes) :
    readerShmChecked t sink al x m now = some (readerShm t sink al x m now) := by
  unfold readerShmChecked readerShm
  by_cases hu : x.r.used = false ∨ m.count = 0
  · rw [if_pos hu, if_pos hu]
  rw [if_neg hu, if_neg hu]
  dsimp only
  by_cases hp : (noteAckReq t x m.ackReq).r.parked = true
  · rw [if_pos hp, if_pos hp]
  rw [if_neg hp, if_neg hp]
  obtain ⟨⟨y, o⟩, harr⟩ : ∃ p, readerOrderArrival t (noteAckReq t x m.ackReq) m.base
      (m.base + m.count - 1) = p := ⟨_, rfl⟩
  rw [harr]
  cases o with
  | old => rfl
  | gap => rfl
  | adopted => exact shmResolveChecked_eq hdesc
  | inorder => exact shmResolveChecked_eq hdesc

variable {l : ReaderLane}

variable {e : ReaderEvent}

/-- Every copy of an event stays inside its buffer. -/
theorem readerStepChecked_eq (hF : l.peerFrag < 2 ^ 16)
    (he : e.Typed) : readerStepChecked t l e = some (readerStep t l e) := by
  cases e with
  | data sink al m now =>
    show (readerDataChecked t l.peerFrag sink al l.side m now).map _ = _
    rw [readerDataChecked_eq hF he.2.1 he.2.2]
    rfl
  | shm sink al m now =>
    show (readerShmChecked t sink al l.side m now).map _ = _
    rw [readerShmChecked_eq he]
    rfl
  | _ => rfl

/-! ## The ledger -/

/-- A fragment the reader accepted, and the fragment size it was stored at. -/
structure Piece where
  size : Nat
  frag : DataMsg

/-- A lane and the fragments accepted for the samples in its slots. -/
structure Ledger where
  lane : ReaderLane
  log : List Piece

instance (x x' : ReaderSide) : Decidable (Took x x') := inferInstanceAs (Decidable (_ ∧ _))

/-- Whether a sample is being assembled in one of the slots. -/
def inSlots (r : ReaderProxy) (base : Nat) : Bool :=
  (r.cur.active && r.cur.base == base) || (r.next.active && r.next.base == base)

/-- The fragment an event makes the reader accept, by its counters. -/
def pieces (t : Topic) (l : ReaderLane) : ReaderEvent → List Piece
  | .data sink al m now =>
    if Took l.side (readerData t l.peerFrag sink al l.side m now) then [⟨l.peerFrag, m⟩] else []
  | _ => []

/-- The fragments accepted so far, an event's own included. -/
def Ledger.heard (t : Topic) (g : Ledger) (e : ReaderEvent) : List Piece := g.log ++ pieces t g.lane e

/-- One event. A sample that left its slot takes its fragments along. -/
def ledgerStep (t : Topic) (g : Ledger) (e : ReaderEvent) : Ledger where
  lane := readerStep t g.lane e
  log := (g.heard t e).filter fun p => inSlots (readerStep t g.lane e).side.r p.frag.base

def freshLedger : Ledger := ⟨freshLane, []⟩

/-- Every copy of an event stays inside its buffer. -/
def Contained (t : Topic) (g : Ledger) (e : ReaderEvent) : Prop :=
  readerStepChecked t g.lane e = some (readerStep t g.lane e)

/-- What an event hands up is all there: each fragment of the sample was accepted. -/
def AllAccepted (log : List Piece) (base count : Nat) : Prop :=
  ∀ k, k < count → ∃ p ∈ log, p.frag.base = base ∧ p.frag.count = count ∧ p.frag.frag = k

/-- Byte `b` at position `i` of sample `base` was carried by an accepted fragment of it. -/
def CarriedAt (log : List Piece) (base i : Nat) (b : UInt8) : Prop :=
  ∃ p ∈ log, p.frag.base = base ∧ p.frag.frag * p.size ≤ i ∧
    p.frag.payload[i - p.frag.frag * p.size]? = some b

/-- Every byte of a sample was carried by an accepted fragment of it. -/
def AllCarried (log : List Piece) (base : Nat) (bytes : Bytes) : Prop :=
  ∀ i b, bytes[i]? = some b → CarriedAt log base i b

/-- What an event hands up meets `D`. -/
def HandsUp (t : Topic) (D : Nat → Nat → Bytes → Prop) (l : ReaderLane) (e : ReaderEvent) : Prop :=
  ∀ f ∈ (readerStep t l e).side.fx.drop l.side.fx.length, Says D f

/-- A sample goes up only when each of its fragments was accepted. -/
def Complete (t : Topic) (g : Ledger) (e : ReaderEvent) : Prop :=
  HandsUp t (fun base count _ => AllAccepted (g.heard t e) base count) g.lane e

/-- Every byte handed up was carried by an accepted fragment of its sample. -/
def Carried (t : Topic) (g : Ledger) (e : ReaderEvent) : Prop :=
  HandsUp t (fun base _ bytes => AllCarried (g.heard t e) base bytes) g.lane e

/-- A fragment fills its place in the slot: its payload reaches the place's end, or the
sample's, and is inside the buffer. A place past the sample's end has nothing to fill. -/
def Fills (peerFrag : Nat) (a : Assembly) (m : DataMsg) : Prop :=
  a.len ≤ m.frag * peerFrag ∨
    (min ((m.frag + 1) * peerFrag) a.len ≤ m.frag * peerFrag + m.payload.length ∧
      m.frag * peerFrag + m.payload.length ≤ a.buf.length)

instance (a : Assembly) (m : DataMsg) : Decidable (Takes a m) := inferInstanceAs (Decidable (_ ∧ _))

instance (F : Nat) (a : Assembly) (m : DataMsg) : Decidable (Fills F a m) :=
  inferInstanceAs (Decidable (_ ∨ _))

/-- A DATA the reader takes fills its place, at the fragment size of the fragments before it. -/
def Filling (t : Topic) (g : Ledger) : ReaderEvent → Prop
  | .data _ al m _ => ∀ s a, offered t g.lane.peerFrag g.lane.side.r m = some (s, a) →
      (asmFit al a m.sampleLen m.count).2 = true → Takes (asmFit al a m.sampleLen m.count).1 m →
      Fills g.lane.peerFrag (asmOpen (asmFit al a m.sampleLen m.count).1 m) m ∧
        ∀ p ∈ g.log, p.frag.base = m.base → p.size = g.lane.peerFrag
  | _ => True

/-! ## What the log keeps of a slot -/

/-- Every fragment held in the slot was accepted. -/
structure Booked (log : List Piece) (a : Assembly) : Prop where
  front : Front a
  held : ∀ k, k < a.count → a.bitmap k = true →
    ∃ p ∈ log, p.frag.base = a.base ∧ p.frag.count = a.count ∧ p.frag.frag = k

/-- The fragments of the slot's sample were all stored at size `F`, and every byte of a held
fragment's place was carried by one of them. -/
structure Laid (log : List Piece) (F : Nat) (a : Assembly) : Prop where
  some_piece : ∃ p ∈ log, p.frag.base = a.base
  size : ∀ p ∈ log, p.frag.base = a.base → p.size = F
  len_le : a.len ≤ a.count * F
  buf_fits : a.len ≤ a.buf.length
  carried : ∀ i, i < a.len → a.bitmap (i / F) = true → ∀ b, a.buf[i]? = some b →
    CarriedAt log a.base i b

/-- A slot whose fragments were accepted, at one size. -/
def BookedLaid (log : List Piece) (a : Assembly) : Prop := Booked log a ∧ ∃ F, Laid log F a

variable {log : List Piece}

theorem Booked.sub {log' : List Piece} (h : Booked log a)
    (hsub : ∀ p ∈ log, p.frag.base = a.base → p ∈ log') : Booked log' a := by
  refine ⟨h.front, fun k hk hb => ?_⟩
  obtain ⟨p, hp, hbase, hcount, hfrag⟩ := h.held k hk hb
  exact ⟨p, hsub p hp hbase, hbase, hcount, hfrag⟩

theorem booked_fitStable (log : List Piece) : FitStable (Booked log) := by
  intro al a len count h
  have hr := asmFit_refitted al a len count
  have hfits := h.front.fits
  refine ⟨h.front.refitted hr, fun k hk hb => ?_⟩
  rw [hr.count] at hk
  rw [hr.bitmap k (by omega)] at hb
  rw [hr.base, hr.count]
  exact h.held k hk hb

/-- The bits of a stored fragment. -/
theorem asmStore_bitmap {payload : Bytes} {k : Nat}
    (h : (asmStore F a frag payload).bitmap k = true) : k = frag ∨ a.bitmap k = true := by
  by_cases hk : k = frag
  · exact Or.inl hk
  refine Or.inr ?_
  have hbit : (asmStore F a frag payload).bitmap k = a.bitmap k := if_neg hk
  rw [← hbit]
  exact h

/-- A fragment the slot held before it was opened for this one is one of the same sample. -/
theorem asmOpen_bitmap {k : Nat} (hk : k < (asmOpen a m).count)
    (h : (asmOpen a m).bitmap k = true) : a.active = true := by
  by_contra ha
  have ha : a.active = false := Bool.not_eq_true _ ▸ ha
  rw [asmOpen_of_free m ha] at h hk
  have hk : k < m.count := hk
  rw [asmStart_bitmap hk] at h
  exact Bool.noConfusion h

theorem asmStore_length (F frag : Nat) (a : Assembly) (payload : Bytes) :
    (asmStore F a frag payload).buf.length = a.buf.length := by
  show (if payload ≠ [] ∧ frag * F + payload.length ≤ a.buf.length
    then writeAt a.buf (frag * F) payload else a.buf).length = _
  split
  next h => exact length_writeAt h.2
  next => rfl

variable {A : Assembly → Prop}

theorem booked_store (hA : ∀ a, A a → Booked log a)
    (hfit : Fitted F A a m) :
    Booked (log ++ [⟨F, m⟩]) (asmStore F (asmOpen a m) m.frag m.payload) := by
  have hbase : (asmOpen a m).base = m.base := asmOpen_base fun ha => (hfit.held ha).2
  refine ⟨hfit.front fun a ha => (hA a ha).front, fun k hk hb => ?_⟩
  rcases asmStore_bitmap hb with rfl | hold
  · exact ⟨⟨F, m⟩, List.mem_append_right _ List.mem_cons_self, hbase.symm, hfit.takes.1, rfl⟩
  · have ha := asmOpen_bitmap hk hold
    rw [asmOpen_of_active m ha] at hk hold
    obtain ⟨p, hp, hpb, hpc, hpf⟩ := (hA a (hfit.held ha).1).held k hk hold
    refine ⟨p, List.mem_append_left _ hp, ?_, ?_, hpf⟩
    · show p.frag.base = (asmOpen a m).base
      rw [asmOpen_of_active m ha]
      exact hpb
    · show p.frag.count = (asmOpen a m).count
      rw [asmOpen_of_active m ha]
      exact hpc

theorem Laid.sub {log' : List Piece} (h : Laid log F a)
    (hsub : ∀ p ∈ log, p.frag.base = a.base → p ∈ log')
    (hsize : ∀ p ∈ log', p.frag.base = a.base → p.size = F) : Laid log' F a := by
  refine ⟨?_, hsize, h.len_le, h.buf_fits, fun i hi hb b hbyte => ?_⟩
  · obtain ⟨p, hp, hbase⟩ := h.some_piece
    exact ⟨p, hsub p hp hbase, hbase⟩
  · obtain ⟨p, hp, hbase, hle, hget⟩ := h.carried i hi hb b hbyte
    exact ⟨p, hsub p hp hbase, hbase, hle, hget⟩

/-- A position inside the sample lies in the place of one of its fragments. -/
theorem place_lt {i len count : Nat} (hi : i < len) (hle : len ≤ count * F) : i / F < count := by
  refine (Nat.div_lt_iff_lt_mul ?_).mpr (by omega)
  rcases Nat.eq_zero_or_pos F with rfl | hpos
  · omega
  · exact hpos

theorem Laid.refitted {a' : Assembly} (h : Laid log F a) (hf : Front a)
    (hr : Refitted a a') : Laid log F a' := by
  obtain ⟨fresh, hbuf⟩ := hr.buf
  have hfit := h.buf_fits
  have hfront := hf.fits
  refine ⟨hr.base ▸ h.some_piece, hr.base ▸ h.size, ?_, ?_, fun i hi hb b hbyte => ?_⟩
  · rw [hr.len, hr.count]
    exact h.len_le
  · rw [hr.len, hbuf, List.length_append]
    omega
  · rw [hr.len] at hi
    have hplace := place_lt hi h.len_le
    rw [hr.bitmap _ (by omega)] at hb
    rw [hbuf, List.getElem?_append_left (by omega)] at hbyte
    rw [hr.base]
    exact h.carried i hi hb b hbyte

theorem bookedLaid_fitStable (log : List Piece) : FitStable (BookedLaid log) := by
  rintro al a len count ⟨hb, F, hl⟩
  exact ⟨booked_fitStable log al a len count hb, F, hl.refitted hb.front (asmFit_refitted al a len count)⟩

/-- What a stored fragment leaves at position `i` of the buffer: a byte of its own, or one that
was there before, outside the fragment's place where the fragment fills it. -/
theorem asmStore_byte {i : Nat} {b : UInt8} (hF : 0 < F)
    (hfill : Fills F a m) (hi : i < a.len) (h : (asmStore F a m.frag m.payload).buf[i]? = some b) :
    (m.frag * F ≤ i ∧ m.payload[i - m.frag * F]? = some b) ∨
      (a.buf[i]? = some b ∧ i / F ≠ m.frag) := by
  have hbuf : (asmStore F a m.frag m.payload).buf =
      if m.payload ≠ [] ∧ m.frag * F + m.payload.length ≤ a.buf.length
      then writeAt a.buf (m.frag * F) m.payload else a.buf := rfl
  -- a byte the copy did not reach is not in the fragment's place
  have houtside : ¬ (m.frag * F + m.payload.length ≤ a.buf.length ∧
      m.frag * F ≤ i ∧ i < m.frag * F + m.payload.length) → i / F ≠ m.frag := by
    intro hno hplace
    have hstart : m.frag * F ≤ i := by
      rw [← hplace]
      exact Nat.div_mul_le_self i F
    have hend : i < (m.frag + 1) * F := by
      rw [← hplace, Nat.mul_comm]
      exact Nat.lt_mul_div_succ i hF
    rcases hfill with hlen | ⟨hreach, hroom⟩
    · omega
    · exact hno ⟨hroom, hstart, by omega⟩
  rw [hbuf] at h
  by_cases hcopy : m.payload ≠ [] ∧ m.frag * F + m.payload.length ≤ a.buf.length
  · rw [if_pos hcopy, getElem?_writeAt hcopy.2] at h
    by_cases hin : m.frag * F ≤ i ∧ i < m.frag * F + m.payload.length
    · rw [if_pos hin] at h
      exact Or.inl ⟨hin.1, h⟩
    · rw [if_neg hin] at h
      exact Or.inr ⟨h, houtside fun hc => hin hc.2⟩
  · rw [if_neg hcopy] at h
    refine Or.inr ⟨h, houtside fun hc => hcopy ⟨?_, hc.1⟩⟩
    intro hnil
    rw [hnil, List.length_nil] at hc
    omega

/-- The slot a fragment is stored in, where the fragment fills its place at the size of those
before it. -/
theorem laid_store (hfit : Fitted F (BookedLaid log) a m)
    (hfill : Fills F (asmOpen a m) m) (hsize : ∀ p ∈ log, p.frag.base = m.base → p.size = F) :
    Laid (log ++ [⟨F, m⟩]) F (asmStore F (asmOpen a m) m.frag m.payload) := by
  have hbase : (asmOpen a m).base = m.base := asmOpen_base fun ha => (hfit.held ha).2
  have hlaid : a.active = true → Laid log F a := by
    intro ha
    obtain ⟨⟨-, F', hl⟩, hab⟩ := hfit.held ha
    obtain ⟨p, hp, hpb⟩ := hl.some_piece
    have hsame : F' = F := (hl.size p hp hpb).symm.trans (hsize p hp (hpb.trans hab))
    rw [← hsame]
    exact hl
  have hlen : (asmOpen a m).len ≤ (asmOpen a m).count * F := by
    unfold asmOpen
    split
    next ha => exact (hlaid ha).len_le
    next => exact hfit.len_le
  have hbuf : (asmOpen a m).len ≤ (asmOpen a m).buf.length := by
    unfold asmOpen
    split
    next ha => exact (hlaid ha).buf_fits
    next => exact hfit.buf_fits
  refine ⟨⟨⟨F, m⟩, List.mem_append_right _ List.mem_cons_self, hbase.symm⟩, ?_, hlen, ?_, ?_⟩
  · intro p hp hpb
    rcases List.mem_append.mp hp with hp | hp
    · exact hsize p hp (hpb.trans hbase)
    · rw [List.mem_singleton.mp hp]
  · rw [asmStore_length]
    exact hbuf
  · intro i hi hbit b hbyte
    have hi : i < (asmOpen a m).len := hi
    have hplace := place_lt hi hlen
    have hF : 0 < F := by
      rcases Nat.eq_zero_or_pos F with rfl | hpos
      · omega
      · exact hpos
    show CarriedAt _ (asmOpen a m).base i b
    rcases asmStore_byte hF hfill hi hbyte with ⟨hle, hget⟩ | ⟨hget, hne⟩
    · exact ⟨⟨F, m⟩, List.mem_append_right _ List.mem_cons_self, hbase.symm, hle, hget⟩
    · -- a byte of a fragment held before
      have hold := (asmStore_bitmap hbit).resolve_left hne
      have ha := asmOpen_bitmap hplace hold
      rw [asmOpen_of_active m ha] at hi hold hget ⊢
      obtain ⟨p, hp, hrest⟩ := (hlaid ha).carried i hi hold b hget
      exact ⟨p, List.mem_append_left _ hp, hrest⟩

/-! ## One event -/

/-- A fragment is accepted only from the slot it was offered to. -/
theorem took_offered (h : Slots t A x.r)
    (htook : Took x (readerData t F sink al x m now)) :
    ∃ s a, offered t F x.r m = some (s, a) ∧ (asmFit al a m.sampleLen m.count).2 = true ∧
      Takes (asmFit al a m.sampleLen m.count).1 m := by
  obtain ⟨hrecv, hdup⟩ := htook
  rcases readerData_cases (D := fun _ _ _ => True) F sink al m now h with
    ⟨-, -, hsame⟩ | ⟨s, a, y, hoff, hr, heq⟩
  · omega
  · have hx := hr.frags
    refine ⟨s, a, hoff, ?_⟩
    rw [heq] at hrecv hdup
    obtain ⟨⟨b, fits⟩, hfit⟩ : ∃ p, asmFit al a m.sampleLen m.count = p := ⟨_, rfl⟩
    have hfit' : asmFit al (y.r.slot s) m.sampleLen m.count = (b, fits) := by
      rw [hr.slot]
      exact hfit
    have hb : (y.put s b).r.slot s = b := slot_setSlot _ _ _
    rw [hfit]
    cases fits with
    | false =>
      have hout : fitSlot t F sink al y s m now =
          if s = .next then (y.put s b).stat fun c => { c with fragsAhead := c.fragsAhead + 1 }
          else headTooBig t sink (y.put s b) m now := by
        unfold fitSlot
        rw [hfit']
        rfl
      have hsame : SameFrags y (fitSlot t F sink al y s m now) := by
        rw [hout]
        split
        next => exact ⟨rfl, rfl⟩
        next => exact headTooBig_frags t sink (y.put s b) m now
      have := hsame.1
      have := hx.1
      omega
    | true =>
      have hin : fitSlot t F sink al y s m now = acceptFrag t F sink (y.put s b) s m now := by
        unfold fitSlot
        rw [hfit']
        rfl
      refine ⟨rfl, ?_⟩
      show Takes b m
      by_contra hno
      rw [hin] at hrecv hdup
      by_cases hcount : m.count = (asmOpen b m).count
      · -- held already: it counts as a duplicate
        have hheld : (asmOpen b m).bitmap m.frag = true := by
          rw [← Bool.not_eq_false]
          exact fun hc => hno ⟨hcount, hc⟩
        rw [acceptFrag_dup now (hb.symm ▸ hcount) (hb.symm ▸ hheld)] at hdup
        have hc := countFrag_frags ((y.put s b).put s (asmOpen ((y.put s b).r.slot s) m)) m false now
        have hs := fragStored_frags t sink (countFrag ((y.put s b).put s
          (asmOpen ((y.put s b).r.slot s) m)) m false now) s m false now
        have hdup' : y.stats.fragsDup + 1 = x.stats.fragsDup := by
          rw [← hdup, hs.2, hc.2]
          rfl
        have := hx.2
        omega
      · rw [acceptFrag_other now (hb.symm ▸ hcount)] at hrecv
        have hsame : y.stats.fragsRecv = x.stats.fragsRecv + 1 := hrecv
        have := hx.1
        omega

theorem pieces_took
    (h : Took l.side (readerData t l.peerFrag sink al l.side m now)) :
    pieces t l (.data sink al m now) = [⟨l.peerFrag, m⟩] := if_pos h

/-- What a step says of its sink calls. -/
theorem LaneGrows.handsUp {D : Nat → Nat → Bytes → Prop}
    (h : LaneGrows t A D l (readerStep t l e)) : HandsUp t D l e := by
  obtain ⟨es, hfx, hes⟩ := h.said
  unfold HandsUp
  rw [hfx, List.drop_left]
  exact hes

/-- The log of the samples still in their slots is all a property of the slots needs. -/
theorem placed_filter {A : List Piece → Assembly → Prop} {r : ReaderProxy}
    (hA : ∀ log log' a, A log a → (∀ p ∈ log, p.frag.base = a.base → p ∈ log') →
      (∀ p ∈ log', p ∈ log) → A log' a)
    (h : Placed t (A log) r) : Placed t (A (log.filter fun p => inSlots r p.frag.base)) r := by
  intro hu
  have hs := h hu
  have hkeep : ∀ a : Assembly, inSlots r a.base = true → A log a →
      A (log.filter fun p => inSlots r p.frag.base) a := by
    intro a hin ha
    refine hA log _ a ha (fun p hp hb => ?_) fun p hp => (List.mem_filter.mp hp).1
    rw [List.mem_filter, hb]
    exact ⟨hp, hin⟩
  refine ⟨hs.head, hs.ahead, fun ha => hkeep _ ?_ (hs.cur_ok ha), fun ha => hkeep _ ?_ (hs.next_ok ha),
    hs.parked_shm, hs.parked_inline, hs.idle, hs.effort⟩
  · simp only [inSlots, ha, beq_self_eq_true, Bool.and_self, Bool.true_or]
  · simp only [inSlots, ha, beq_self_eq_true, Bool.and_self, Bool.or_true]

theorem booked_handed (log : List Piece) :
    Handed (Booked log) fun base count _ => AllAccepted log base count := by
  intro a ha hlow k hk
  exact ha.held k hk (ha.front.held k (hlow.symm ▸ hk))

theorem bookedLaid_handed (log : List Piece) :
    Handed (BookedLaid log) fun base _ bytes => AllCarried log base bytes := by
  rintro a ⟨hb, F, hl⟩ hlow i b hbyte
  rw [List.getElem?_take] at hbyte
  by_cases hi : i < a.len
  · rw [if_pos hi] at hbyte
    exact hl.carried i hi (hb.front.held _ (hlow.symm ▸ place_lt hi hl.len_le)) b hbyte
  · rw [if_neg hi] at hbyte
    exact absurd hbyte (Option.some_ne_none b).symm

variable {g : Ledger}

/-- Every event keeps the slots booked and hands up complete samples only. -/
theorem ledgerStep_booked (e : ReaderEvent) (h : Placed t (Booked g.log) g.lane.side.r) :
    Placed t (Booked (ledgerStep t g e).log) (ledgerStep t g e).lane.side.r ∧ Complete t g e := by
  have hsub : ∀ a, Booked g.log a → Booked (g.heard t e) a :=
    fun a ha => ha.sub fun p hp _ => List.mem_append_left _ hp
  have hput : e.Puts t (Booked g.log) (Booked (g.heard t e)) g.lane := by
    cases e with
    | data sink al m now =>
      intro s a _ hfit htook
      show Booked (g.log ++ pieces t g.lane (.data sink al m now)) _
      rw [pieces_took htook]
      exact booked_store (fun _ ha => ha) hfit
    | _ => trivial
  have hgrow := readerStep_grows (booked_fitStable g.log) hsub (booked_handed (g.heard t e)) h e hput
  refine ⟨placed_filter (A := Booked) (fun _ _ a ha hkeep _ => ha.sub hkeep) hgrow.slots, hgrow.handsUp⟩

/-- An event that fills its place keeps the slots laid out and hands up carried bytes only. -/
theorem ledgerStep_laid (h : Placed t (BookedLaid g.log) g.lane.side.r)
    (hfill : Filling t g e) :
    Placed t (BookedLaid (ledgerStep t g e).log) (ledgerStep t g e).lane.side.r ∧ Carried t g e := by
  -- the fragments of a sample are still of one size
  have hsize : ∀ p ∈ pieces t g.lane e, ∀ q ∈ g.log, q.frag.base = p.frag.base → q.size = p.size := by
    intro p hp q hq hbase
    cases e with
    | data sink al m now =>
      by_cases htook : Took g.lane.side (readerData t g.lane.peerFrag sink al g.lane.side m now)
      · rw [pieces_took htook] at hp
        rw [List.mem_singleton.mp hp] at hbase ⊢
        have hu : g.lane.side.r.used = true := by
          by_contra hu
          unfold readerData at htook
          rw [if_pos (Bool.not_eq_true _ ▸ hu)] at htook
          have : g.lane.side.stats.fragsRecv = g.lane.side.stats.fragsRecv + 1 := htook.1
          omega
        obtain ⟨s, a, hoff, hfits, htakes⟩ := took_offered (h hu) htook
        exact (hfill s a hoff hfits htakes).2 q hq hbase
      · have hnone : pieces t g.lane (.data sink al m now) = [] := if_neg htook
        rw [hnone] at hp
        exact absurd hp List.not_mem_nil
    | _ => exact absurd hp List.not_mem_nil
  have hsub : ∀ a, BookedLaid g.log a → BookedLaid (g.heard t e) a := by
    rintro a ⟨hb, F, hl⟩
    have hin : ∀ p ∈ g.log, p.frag.base = a.base → p ∈ g.heard t e :=
      fun p hp _ => List.mem_append_left _ hp
    refine ⟨hb.sub hin, F, hl.sub hin fun p hp hbase => ?_⟩
    rcases List.mem_append.mp hp with hp | hp
    · exact hl.size p hp hbase
    · obtain ⟨q, hq, hqb⟩ := hl.some_piece
      exact (hsize p hp q hq (hqb.trans hbase.symm)).symm.trans (hl.size q hq hqb)
  have hput : e.Puts t (BookedLaid g.log) (BookedLaid (g.heard t e)) g.lane := by
    cases e with
    | data sink al m now =>
      intro s a hoff hfit htook
      have hu : g.lane.side.r.used = true := by
        by_contra hu
        unfold offered at hoff
        rw [if_pos (Or.inl (Bool.not_eq_true _ ▸ hu))] at hoff
        exact absurd hoff (Option.some_ne_none _).symm
      obtain ⟨s', a', hoff', hfits, -⟩ := took_offered (h hu) htook
      obtain ⟨-, ha⟩ := Prod.mk.inj (Option.some.inj (hoff'.symm.trans hoff))
      rw [ha] at hfits
      obtain ⟨hplace, hsame⟩ := hfill s a hoff hfits hfit.takes
      show BookedLaid (g.log ++ pieces t g.lane (.data sink al m now)) _
      rw [pieces_took htook]
      exact ⟨booked_store (fun _ ha => ha.1) hfit, _, laid_store hfit hplace hsame⟩
    | _ => trivial
  have hgrow := readerStep_grows (bookedLaid_fitStable g.log) hsub (bookedLaid_handed (g.heard t e)) h e hput
  refine ⟨placed_filter (A := BookedLaid) ?_ hgrow.slots, hgrow.handsUp⟩
  rintro _ _ a ⟨hb, F, hl⟩ hkeep hless
  exact ⟨hb.sub hkeep, F, hl.sub hkeep fun p hp hbase => hl.size p (hless p hp) hbase⟩

/-! ## Runs -/

/-- The fragment size of a lane's peer stays one of 16 bits. -/
theorem readerStep_peerFrag (h : l.peerFrag < 2 ^ 16)
    (he : e.Typed) : (readerStep t l e).peerFrag < 2 ^ 16 := by
  cases e with
  | setFrag peerFrag => exact he
  | released =>
    unfold readerStep
    dsimp only
    split <;> exact h
  | _ => exact h

/-- In every run over submessages with arbitrary fields, every copy stays inside its buffer and
a sample goes up only when each of its fragments was accepted. Where every accepted fragment
fills its place, at one fragment size for the sample, every byte that goes up was carried by an
accepted fragment of its sample. -/
theorem reassembly_integrity (t : Topic) (es : List ReaderEvent) (htyped : ∀ e ∈ es, e.Typed) :
    Along (ledgerStep t) (fun g e => Contained t g e ∧ Complete t g e) freshLedger es ∧
      (Along (ledgerStep t) (Filling t) freshLedger es →
        Along (ledgerStep t) (Carried t) freshLedger es) := by
  constructor
  · refine along_of_invariant
      (fun g : Ledger => g.lane.peerFrag < 2 ^ 16 ∧ Placed t (Booked g.log) g.lane.side.r)
      (fun g e hg he => ?_) es freshLedger ⟨?_, ?_⟩
      (along_of_forall (Q := ReaderEvent.Typed) freshLedger htyped)
    · obtain ⟨hF, hb⟩ := hg
      have hstep := ledgerStep_booked e hb
      exact ⟨⟨readerStep_peerFrag hF he, hstep.1⟩, readerStepChecked_eq hF he, hstep.2⟩
    · exact Nat.two_pow_pos 16
    · exact fun hu => Bool.noConfusion hu
  · refine along_of_invariant (fun g : Ledger => Placed t (BookedLaid g.log) g.lane.side.r)
      (fun g e hg he => ledgerStep_laid hg he) es freshLedger ?_
    exact fun hu => Bool.noConfusion hu

/-- The condition of a DATA, over what it is offered to. -/
theorem filling_of
    (h : ∀ q ∈ (offered t g.lane.peerFrag g.lane.side.r m).toList,
      Fills g.lane.peerFrag (asmOpen (asmFit al q.2 m.sampleLen m.count).1 m) m ∧
        ∀ p ∈ g.log, p.frag.base = m.base → p.size = g.lane.peerFrag) :
    Filling t g (.data sink al m now) := by
  intro s a hoff _ _
  exact h (s, a) (Option.mem_toList.mpr hoff)

theorem someData_typed {seqno count sampleLen n : Nat} {v : UInt8} (hfrag : frag < 2 ^ 16)
    (hcount : count < 2 ^ 16) (hn : n < 2 ^ 16) :
    (someData seqno frag count sampleLen n v).Typed := by
  refine ⟨hfrag, hcount, ?_⟩
  rw [List.length_replicate]
  exact hn

/-- A sample of two fragments that fill their places, the last one the shorter. -/
def wholeRun : List ReaderEvent :=
  [.matched 1, .setFrag 1350, someData 0 0 2 1352 1350 7, someData 1 1 2 1352 2 8]

theorem reassembly_integrity_whole :
    Along (ledgerStep heardTopic)
      (fun g e => Contained heardTopic g e ∧ Complete heardTopic g e) freshLedger wholeRun ∧
    Along (ledgerStep heardTopic) (Carried heardTopic) freshLedger wholeRun ∧
    Effect.message 0 2 (List.replicate 1350 7 ++ [8, 8]) false ∈
      (readerRun heardTopic wholeRun).side.fx := by
  have htyped : ∀ e ∈ wholeRun, e.Typed := by
    intro e he
    simp only [wholeRun, List.mem_cons, List.not_mem_nil, or_false] at he
    rcases he with rfl | rfl | rfl | rfl
    · trivial
    · exact (by decide : 1350 < 2 ^ 16)
    · apply someData_typed <;> decide
    · apply someData_typed <;> decide
  have h := reassembly_integrity heardTopic wholeRun htyped
  refine ⟨h.1, h.2 ⟨trivial, trivial, ?_, ?_, trivial⟩, by decide +kernel⟩
  · apply filling_of
    decide +kernel
  · apply filling_of
    decide +kernel

/-- A DATA of sample 0 that fills its place, then one of sample 1 that claims four bytes and
brings none. -/
def staleRun : List ReaderEvent :=
  [.matched 1, .setFrag 1350, someData 0 0 1 4 4 7, someData 1 0 1 4 0 0]

/-- The bytes of sample 0 go up once more, as sample 1. -/
theorem stale_bytes : (∀ e ∈ staleRun, e.Typed) ∧
    Effect.message 1 1 [7, 7, 7, 7] false ∈ (readerRun heardTopic staleRun).side.fx ∧
    ¬ Along (ledgerStep heardTopic) (Carried heardTopic) freshLedger staleRun := by
  refine ⟨?_, by decide, ?_⟩
  · intro e he
    simp only [staleRun, List.mem_cons, List.not_mem_nil, or_false] at he
    rcases he with rfl | rfl | rfl | rfl
    · trivial
    · exact (by decide : 1350 < 2 ^ 16)
    · apply someData_typed <;> decide
    · apply someData_typed <;> decide
  · rintro ⟨-, -, -, hlast, -⟩
    have hup := hlast (.message 1 1 [7, 7, 7, 7] false) (by decide)
    obtain ⟨p, hp, hbase, -, hget⟩ := hup 0 7 rfl
    -- the one fragment of sample 1 carried nothing
    have hempty : ∀ q ∈ (run (ledgerStep heardTopic) freshLedger (staleRun.take 3)).heard heardTopic
        (someData 1 0 1 4 0 0), q.frag.base = 1 → q.frag.payload = [] := by
      decide
    rw [hempty p hp hbase] at hget
    simp at hget

end Rant.Transport
