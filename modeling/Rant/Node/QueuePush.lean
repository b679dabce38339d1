import Rant.Node.QueueLayout
/-!
# Pushing onto the ring

A push grows the ring, drops what is oldest or gives up until its record fits. `Offered` follows its
turns and asks of each that what it gave up for did not fit: it is the source's loop with `Room` in
place of `i_rant_q_fit`. The two disagree in one state only, where the tail still stands at the end of
the records that wrap (`fit_room`): `peek` normalizes it, `fit` does not.
-/

namespace Rant.Node

open Rant.Lib
open Rant.Lib.Fragment (writeAt getElem?_writeAt length_writeAt)

/-! ## Records -/

namespace QPut

variable {p : QPut}

/-- The size of the record has 32 bits. -/
def Sized (p : QPut) : Prop := p.payloadOff + (p.hdr.length + p.data.length) + 7 < 2 ^ 32

theorem recName_le (p : QPut) : p.recName.length ≤ nodeNameMax := by
  unfold recName
  rw [List.length_take]
  exact Nat.min_le_left _ _

/-- The payload starts at the first multiple of 8 past the name. -/
theorem payloadOff_bounds (p : QPut) :
    qRecHead + p.recName.length ≤ p.payloadOff ∧ p.payloadOff ≤ qRecHead + p.recName.length + 7 := by
  have hname := p.recName_le
  unfold payloadOff qAlign qRecHead
  unfold nodeNameMax at hname
  omega

/-- The length stored is the payload's. -/
theorem Sized.bodyLen (h : p.Sized) : p.bodyLen = (p.hdr ++ p.data).length := by
  unfold Sized at h
  unfold QPut.bodyLen
  rw [List.length_append]
  omega

/-- A record holds its payload and is never the wrap mark. -/
theorem Sized.need (h : p.Sized) : p.payloadOff + (p.hdr ++ p.data).length ≤ p.need ∧ p.need < qWrap := by
  have hbody := h.bodyLen
  unfold Sized at h
  rw [List.length_append] at hbody ⊢
  unfold QPut.need
  rw [hbody]
  unfold qAlign qWrap
  omega

theorem length_header (p : QPut) : p.header.length = qRecHead := by
  unfold header
  simp only [List.length_append, length_writeLe, List.length_cons, List.length_nil]
  rfl

/-- What a record says. -/
def record (p : QPut) : QRec where
  dataLen := p.bodyLen
  tRecvUs := (if p.recvUs ≠ 0 then p.recvUs else p.nowUs) % 2 ^ 64
  tWrittenUs := p.writtenUs % 2 ^ 64
  tCaptureUs := p.captureUs % 2 ^ 64
  publisherId := p.publisherId % 2 ^ 32
  nameLen := p.recName.length
  kind := p.kind % 2 ^ 8
  name := p.recName
  data := p.hdr ++ p.data

end QPut

/-- What was written as a record is read as one. -/
theorem qRecOf_placed {p : QPut} {r : QBytes} (hsized : p.Sized) (hheader : Placed r 0 p.header)
    (hname : Placed r qRecHead p.recName) (hbody : Placed r p.payloadOff (p.hdr ++ p.data)) :
    qRecOf r = p.record ∧ readLe r 0 4 = some p.need := by
  -- a number of the header, and what is left behind it
  have hfield : ∀ {n i v : Nat} {rest : QBytes}, p.header.drop i = writeLe n v ++ rest → i + n ≤ qRecHead →
      readLe r i n = some (v % 256 ^ n) ∧ p.header.drop (i + n) = rest := by
    intro n i v rest hdrop hin
    have h := hheader.readLe (by rw [p.length_header]; exact hin)
    rw [Nat.zero_add] at h
    rw [h]
    exact readLe_front hdrop
  have h0 : p.header.drop 0 = writeLe 4 p.need ++ (writeLe 4 p.bodyLen ++
      (writeLe 8 (if p.recvUs ≠ 0 then p.recvUs else p.nowUs) ++ (writeLe 8 p.writtenUs ++
        (writeLe 8 p.captureUs ++ (writeLe 4 p.publisherId ++ (writeLe 1 p.recName.length ++
          (writeLe 1 p.kind ++ [0, 0]))))))) := by
    simp only [QPut.header, List.append_assoc, List.drop_zero]
  obtain ⟨hsize, h4⟩ := hfield h0 (by decide)
  obtain ⟨hdata, h8⟩ := hfield h4 (by decide)
  obtain ⟨hrecv, h16⟩ := hfield h8 (by decide)
  obtain ⟨hwritten, h24⟩ := hfield h16 (by decide)
  obtain ⟨hcapture, h32⟩ := hfield h24 (by decide)
  obtain ⟨hpublisher, h36⟩ := hfield h32 (by decide)
  obtain ⟨hlen, h37⟩ := hfield h36 (by decide)
  obtain ⟨hkind, -⟩ := hfield h37 (by decide)
  have hneed : p.need % 256 ^ 4 = p.need := Nat.mod_eq_of_lt (Nat.lt_trans hsized.need.2 (by decide))
  have hbodyLen : p.bodyLen % 256 ^ 4 = p.bodyLen := Nat.mod_eq_of_lt (Nat.mod_lt _ (Nat.two_pow_pos 32))
  have hnameLen : p.recName.length % 256 ^ 1 = p.recName.length :=
    Nat.mod_eq_of_lt (Nat.lt_of_le_of_lt p.recName_le (by decide))
  have hrecName : slice r qRecHead p.recName.length = p.recName := hname.slice
  have hrecData : slice r (qAlign (qRecHead + p.recName.length)) p.bodyLen = p.hdr ++ p.data := by
    rw [hsized.bodyLen]
    exact hbody.slice
  refine ⟨?_, hsize.trans (congrArg some hneed)⟩
  unfold qRecOf
  dsimp only
  rw [hdata, hrecv, hwritten, hcapture, hpublisher, hlen, hkind, hbodyLen, hnameLen]
  dsimp only [Option.getD_some]
  rw [hrecName, hrecData]
  rfl

/-- The record that `put` wrote, and the rest as it was. -/
theorem put_record {q : MsgQueue} {p : QPut} {off : Nat} (hsized : p.Sized) (hfits : off + p.need ≤ q.cap) :
    (q.put p off).buf.length = q.buf.length ∧
    (∀ i, i < off ∨ off + p.need ≤ i → (q.put p off).buf[i]? = q.buf[i]?) ∧
    IsRec (slice (q.put p off).buf off p.need) ∧ qRecOf (slice (q.put p off).buf off p.need) = p.record := by
  have hoff := p.payloadOff_bounds
  have hneed := hsized.need
  have hhead := p.length_header
  unfold MsgQueue.cap at hfits
  have h1 : off + p.header.length ≤ q.buf.length := by omega
  have hl1 := length_writeAt h1
  have h2 : off + qRecHead + p.recName.length ≤ (writeAt q.buf off p.header).length := by omega
  have hl2 := length_writeAt h2
  have h3 : off + p.payloadOff + (p.hdr ++ p.data).length ≤
      (writeAt (writeAt q.buf off p.header) (off + qRecHead) p.recName).length := by omega
  have hl3 := length_writeAt h3
  have hlen : (q.put p off).buf.length = q.buf.length := hl3.trans (hl2.trans hl1)
  have hplaced : Placed (q.put p off).buf off (slice (q.put p off).buf off p.need) :=
    placed_slice (hlen.symm ▸ hfits)
  have hslen : (slice (q.put p off).buf off p.need).length = p.need := length_slice (hlen.symm ▸ hfits)
  have hheader : Placed (q.put p off).buf off p.header :=
    ((placed_write h1).write h2 (Or.inl (by omega))).write h3 (Or.inl (by omega))
  have hname : Placed (q.put p off).buf (off + qRecHead) p.recName :=
    (placed_write h2).write h3 (Or.inl (by omega))
  have hbody : Placed (q.put p off).buf (off + p.payloadOff) (p.hdr ++ p.data) := placed_write h3
  obtain ⟨hrecord, hsize⟩ := qRecOf_placed hsized
    (hplaced.inside (k := 0) hheader (by omega)) (hplaced.inside hname (by omega)) (hplaced.inside hbody (by omega))
  refine ⟨hlen, fun i hi => ?_, ⟨by omega, by rw [hsize, hslen], by omega⟩, hrecord⟩
  show (writeAt (writeAt (writeAt q.buf off p.header) (off + qRecHead) p.recName)
    (off + p.payloadOff) (p.hdr ++ p.data))[i]? = _
  rw [getElem?_writeAt h3, if_neg (by omega), getElem?_writeAt h2, if_neg (by omega), getElem?_writeAt h1,
    if_neg (by omega)]

namespace MsgQueue

variable {q q' : MsgQueue} {r : QBytes} {rs : List QBytes} {need : Nat}

/-! ## Room -/

/-- There is room for a record beside the ones held: behind the newest up to the oldest or the end,
or from the start up to the oldest. -/
def Room (q : MsgQueue) (need : Nat) : Prop :=
  need ≤ q.cap ∧ (q.count = 0 ∨
    (q.norm q.tail < q.head ∧ (need ≤ q.cap - q.head ∨ need ≤ q.norm q.tail)) ∨
    (q.head < q.norm q.tail ∧ need ≤ q.norm q.tail - q.head))

/-- Where the records wrap, if they do: the first place from `off` on, over `n` records, at which no
record stands. -/
def wrapFrom (q : MsgQueue) : Nat → Nat → Option Nat
  | 0, _ => none
  | n + 1, off => if q.wrapsAt off then some off else wrapFrom q n (off + q.recBytes off)

instance (q : MsgQueue) (need : Nat) : Decidable (Room q need) := inferInstanceAs (Decidable (_ ∧ _))

/-- The records wrap, the new one fits behind the newest up to the end of the buffer but not up to the
wrap, and the wrap is what stands in front: the tail is there, or the drops will bring it there. -/
def Skewed (q : MsgQueue) (need : Nat) : Prop :=
  ∃ top, q.wrapFrom q.count q.tail = some top ∧ top - q.head < need ∧ need ≤ q.cap - q.head ∧
    (q.tail = top ∨ q.reliable = false ∧ q.viewing = false)

/-- Where the ring wraps is a matter of its bytes. -/
theorem wrapFrom_buf (h : q'.buf = q.buf) : ∀ n off, q'.wrapFrom n off = q.wrapFrom n off
  | 0, _ => rfl
  | n + 1, off => by
    have hrec : q'.recBytes off = q.recBytes off := by
      unfold recBytes
      rw [h]
    have hat : q'.wrapsAt off = q.wrapsAt off := by
      unfold wrapsAt cap
      rw [hrec, h]
    unfold wrapFrom
    rw [hat, hrec, wrapFrom_buf h n]

/-- No record of a run is a wrap. -/
theorem wrapFrom_run : ∀ {rs : List QBytes} {off stop : Nat}, BackToBack q.buf off rs stop →
    (∀ r ∈ rs, IsRec r) → ∀ n, q.wrapFrom (rs.length + n) off = q.wrapFrom n stop
  | [], off, stop, h, _, n => by
    obtain rfl : stop = off := h
    rw [List.length_nil, Nat.zero_add]
  | r :: rs, off, stop, h, hrecs, n => by
    have hr := hrecs r List.mem_cons_self
    have ih := wrapFrom_run h.2 (fun r' hr' => hrecs r' (List.mem_cons_of_mem r hr')) n
    rw [List.length_cons, Nat.add_right_comm]
    show (if q.wrapsAt off then some off else q.wrapFrom (rs.length + n) (off + q.recBytes off)) = _
    rw [wrapsAt_placed h.1 hr, recBytes_placed h.1 hr, ih]
    rfl

/-- Records in one run never wrap. -/
theorem Linear.wrap (h : Linear q rs) (hheld : Held q rs) : q.wrapFrom q.count q.tail = none := by
  have hrun := wrapFrom_run h.run hheld.recs 0
  rw [Nat.add_zero] at hrun
  rw [hheld.count, hrun]
  rfl

/-- Records in two runs wrap where the first ends. -/
theorem Wrapped.wrap {xs ys : List QBytes} {top : Nat} (h : Wrapped q xs ys top) (hheld : Held q (xs ++ ys)) :
    q.wrapFrom q.count q.tail = some top := by
  have hrun := wrapFrom_run h.first (fun r hr => hheld.recs r (List.mem_append_left ys hr)) ys.length
  rw [hheld.count, List.length_append, hrun]
  cases hys : ys.length with
  | zero => exact absurd (List.eq_nil_of_length_eq_zero hys) h.later
  | succ n =>
    unfold wrapFrom
    rw [if_pos h.stop]

/-- So one run is never skewed. -/
theorem Linear.not_skewed (h : Linear q rs) (hheld : Held q rs) : ¬Skewed q need := by
  rintro ⟨top, htop, -⟩
  rw [h.wrap hheld] at htop
  exact absurd htop.symm (Option.some_ne_none top)

/-- `fit` finds no room that is there in the skewed state alone. -/
theorem fit_room (h : Held q rs) (hneed : 0 < need) (hnone : q.fit need = none) (hroom : Room q need) :
    Skewed q need := by
  unfold fit at hnone
  obtain ⟨hcap, hroom⟩ := hroom
  rw [if_neg (Nat.not_lt.mpr hcap)] at hnone
  by_cases hcount : q.count = 0
  · rw [if_pos hcount] at hnone
    exact absurd hnone (Option.some_ne_none _)
  rw [if_neg hcount] at hnone
  obtain hzero | hroom := hroom
  · exact absurd hzero hcount
  obtain hnil | hlin | ⟨xs, ys, top, rfl, hwrap⟩ := h.layout
  · rw [hnil] at h
    exact absurd h.count hcount
  · -- in one piece the tail is where the oldest record stands
    have hnorm : q.norm q.tail = q.tail := by
      cases rs with
      | nil => exact absurd h.count hcount
      | cons r rs => exact norm_placed hlin.run.1 (h.recs r List.mem_cons_self)
    rw [hnorm] at hroom
    obtain ⟨hlt, hroom⟩ | ⟨hlt, hroom⟩ := hroom
    · rw [if_pos hlt] at hnone
      by_cases hend : need ≤ q.cap - q.head
      · rw [if_pos hend] at hnone
        exact absurd hnone (Option.some_ne_none _)
      rw [if_neg hend, if_pos (hroom.resolve_left hend)] at hnone
      exact absurd hnone (Option.some_ne_none _)
    · rw [if_neg (by omega), if_pos ⟨hlt, hroom⟩] at hnone
      exact absurd hnone (Option.some_ne_none _)
  have hnlt : ¬q.tail < q.head := Nat.not_lt.mpr hwrap.apart
  rw [if_neg hnlt] at hnone
  have hfull : ¬(q.head < q.tail ∧ need ≤ q.tail - q.head) := by
    intro hfull
    rw [if_pos hfull] at hnone
    exact absurd hnone (Option.some_ne_none _)
  cases xs with
  | nil =>
    have htop : top = q.tail := hwrap.first
    have hnorm : q.norm q.tail = 0 := by
      unfold norm
      rw [← htop, hwrap.stop]
      rfl
    rw [hnorm] at hroom
    refine ⟨top, hwrap.wrap h, ?_, ?_, Or.inl htop.symm⟩
    · omega
    · omega
  | cons x xs =>
    rw [norm_placed hwrap.first.1 (h.recs x List.mem_cons_self)] at hroom
    obtain ⟨hlt, -⟩ | hroom := hroom
    · exact absurd hlt hnlt
    · exact absurd hroom hfull

/-- Dropping the oldest does not lead into the skewed state. -/
theorem Skewed.of_pop (h : Held q (r :: rs)) (hview : q.viewing = false) (hrel : q.reliable = false)
    {n : Nat} (hskew : Skewed { q.pop with dropped := n } need) : Skewed q need := by
  obtain ⟨top, htop, hshort, hlong, -⟩ := hskew
  have hpop : q.pop.buf = q.buf ∧ (q.count ≠ 1 → q.pop.head = q.head ∧ q.pop.count = q.count - 1 ∧
      q.pop.tail = q.norm q.tail + r.length) ∧ (q.count = 1 → q.pop.count = 0) := by
    unfold pop
    rw [if_neg h.count_ne, peek_eq h.count_ne]
    dsimp only
    split
    · rename_i hone
      exact ⟨rfl, fun hne => absurd hone hne, fun _ => rfl⟩
    · rename_i hone
      exact ⟨rfl, fun _ => ⟨rfl, rfl, congrArg (q.norm q.tail + ·) h.recBytes⟩, fun hone' => absurd hone' hone⟩
  obtain ⟨hbuf, hmany, hone⟩ := hpop
  have hbuf' : ({ q.pop with dropped := n } : MsgQueue).buf = q.buf := hbuf
  have htop : q.wrapFrom q.pop.count q.pop.tail = some top := (wrapFrom_buf hbuf' _ _).symm.trans htop
  have hshort : top - q.pop.head < need := hshort
  have hlong : need ≤ q.pop.cap - q.pop.head := hlong
  by_cases hcount : q.count = 1
  · rw [hone hcount] at htop
    exact absurd htop.symm (Option.some_ne_none top)
  obtain ⟨hhead, hn, htail⟩ := hmany hcount
  have hcap : q.pop.cap = q.cap := congrArg List.length hbuf
  rw [hhead] at hshort hlong
  rw [hcap] at hlong
  rw [hn, htail] at htop
  refine ⟨top, ?_, hshort, hlong, Or.inr ⟨hrel, hview⟩⟩
  have hrest : q.count = q.count - 1 + 1 := by
    have := h.count_ne
    omega
  cases hat : q.wrapsAt q.tail with
  | false =>
    have hnorm : q.norm q.tail = q.tail := by
      unfold norm
      rw [hat]
      rfl
    have hrec := h.recBytes
    rw [hnorm] at htop hrec
    rw [hrest]
    unfold wrapFrom
    rw [hat, hrec]
    exact htop
  | true =>
    -- from the start the records do not wrap
    have hnorm : q.norm q.tail = 0 := by
      unfold norm
      rw [hat]
      rfl
    have hr := h.recs r List.mem_cons_self
    have hsecond : BackToBack q.buf 0 (r :: rs) q.head := by
      obtain hnil | hlin | ⟨xs, ys, top', hsplit, hwrap⟩ := h.layout
      · exact absurd hnil (List.cons_ne_nil _ _)
      · rw [wrapsAt_placed hlin.run.1 hr] at hat
        exact absurd hat Bool.false_ne_true
      cases xs with
      | nil =>
        have hys : r :: rs = ys := hsplit
        exact hys ▸ hwrap.second
      | cons x xs =>
        obtain ⟨rfl, -⟩ := List.cons.inj hsplit
        rw [wrapsAt_placed hwrap.first.1 hr] at hat
        exact absurd hat Bool.false_ne_true
    have hrun := wrapFrom_run hsecond.2 (fun r' hr' => h.recs r' (List.mem_cons_of_mem r hr')) 0
    have hlen : q.count - 1 = rs.length := by
      rw [h.count]
      rfl
    rw [hnorm, hlen, ← Nat.add_zero rs.length, hrun] at htop
    exact absurd htop.symm (Option.some_ne_none top)

/-! ## A push, turn by turn -/

/-- The turns of a push that gives up a record only where there is no room for its own. -/
inductive Offered (p : QPut) (grants : Nat → Bool) (junk : Nat → UInt8) :
    Nat → List QBytes → MsgQueue → Pushed → Prop
  | store {k evicted q q' off} (hfit : q.fit p.need = some (q', off)) :
    Offered p grants junk k evicted q
      { q := q'.put p off, stored := some (slice (q'.put p off).buf off p.need), evicted
        lost := if q'.silent then 0 else evicted.length }
  | grow {k evicted q q' out}
    (hgrow : q.grow ((q.bytes + p.need) % 2 ^ 32) p.need (grants k) junk = some q')
    (hnext : Offered p grants junk (k + 1) evicted q' out) : Offered p grants junk k evicted q out
  | refuse {k evicted q} (hroom : ¬Room q p.need)
    (hgrow : q.grow ((q.bytes + p.need) % 2 ^ 32) p.need (grants k) junk = none)
    (hrel : q.reliable = true) :
    Offered p grants junk k evicted q { q := { q with parked := true }, evicted, refused := true }
  | evict {k evicted q out} (hroom : ¬Room q p.need)
    (hgrow : q.grow ((q.bytes + p.need) % 2 ^ 32) p.need (grants k) junk = none)
    (hrel : q.reliable = false) (hview : q.viewing = false) (hcount : q.count ≠ 0)
    (hnext : Offered p grants junk (k + 1) (evicted ++ [q.oldest])
      { q.pop with dropped := q.dropped + 1 } out) : Offered p grants junk k evicted q out
  | drop {k evicted q} (hroom : ¬Room q p.need)
    (hgrow : q.grow ((q.bytes + p.need) % 2 ^ 32) p.need (grants k) junk = none)
    (hrel : q.reliable = false) (hpinned : q.viewing = true ∨ q.count = 0) :
    Offered p grants junk k evicted q
      { q := { q with dropped := q.dropped + 1 }, evicted
        lost := if q.silent then 0 else evicted.length + 1 }

/-! ## The turns end -/

/-- The doubling stays below 4 GiB. -/
theorem doubled_lt (needTotal : Nat) : ∀ {n target : Nat}, target < 2 ^ 32 → doubled needTotal n target < 2 ^ 32
  | 0, _, h => h
  | n + 1, target, h => by
    unfold doubled
    split
    · rename_i hlow
      exact doubled_lt needTotal (show target * 2 < 2 ^ 32 by omega)
    · exact h

theorem growTarget_lt (q : MsgQueue) (needTotal needOne : Nat) : q.growTarget needTotal needOne < 2 ^ 32 := by
  have hmin : ∀ t, t < 2 ^ 32 → (if t < 4096 then 4096 else t) < 2 ^ 32 := by
    intro t ht
    split
    · exact Nat.pow_lt_pow_of_lt Nat.one_lt_two (show 12 < 32 by decide)
    · exact ht
  have hstart : (if q.cap ≠ 0 then q.cap * 2 % 2 ^ 32 else 4096) < 2 ^ 32 := by
    split
    · exact Nat.mod_lt _ (Nat.two_pow_pos 32)
    · exact Nat.pow_lt_pow_of_lt Nat.one_lt_two (show 12 < 32 by decide)
  have hcapped : ∀ t, t < 2 ^ 32 → (if q.capLimit < t then q.capLimit else t) < 2 ^ 32 := by
    intro t ht
    split
    · rename_i hlimit
      exact Nat.lt_trans hlimit ht
    · exact ht
  have htwo : ∀ t, t < 2 ^ 32 → (if t / 2 < qAlign needOne then 2 * qAlign needOne % 2 ^ 32 else t) < 2 ^ 32 := by
    intro t ht
    split
    · exact Nat.mod_lt _ (Nat.two_pow_pos 32)
    · exact ht
  exact htwo _ (hcapped _ (doubled_lt needTotal (hmin _ hstart)))

/-- The counts of drops, the parking and the view are no part of the layout. -/
theorem Held.reflag (h : Held q rs) (dropped : Nat) (parked viewing : Bool)
    (hview : viewing = true → rs ≠ [] ∧ q.wrapsAt q.tail = false) :
    Held { q with dropped := dropped, parked := parked, viewing := viewing } rs := by
  refine ⟨h.count, h.bytes, h.recs, ?_, hview⟩
  obtain hnil | hlin | ⟨xs, ys, top, hsplit, hwrap⟩ := h.layout
  · exact Or.inl hnil
  · exact Or.inr (Or.inl ⟨hlin.run, hlin.fits⟩)
  · exact Or.inr (Or.inr ⟨xs, ys, top, hsplit, hwrap.later, hwrap.first, hwrap.fits, hwrap.stop, hwrap.second,
      hwrap.apart⟩)

theorem Held.flags (h : Held q rs) (dropped : Nat) (parked : Bool) :
    Held { q with dropped := dropped, parked := parked } rs :=
  h.reflag dropped parked q.viewing h.viewed

theorem pop_count (h : q.count ≠ 0) : q.pop.count = q.count - 1 := by
  unfold pop
  rw [if_neg h, peek_eq h]
  dsimp only
  split
  · rename_i hone
    rw [hone]
  · rfl

theorem pop_cap (q : MsgQueue) : q.pop.cap = q.cap := by
  unfold pop peek cap
  split
  · rfl
  · dsimp only
    split <;> rfl

theorem pop_fields (q : MsgQueue) : q.pop.reliable = q.reliable ∧ q.pop.silent = q.silent ∧
    q.pop.viewing = q.viewing ∧ q.pop.capLimit = q.capLimit := by
  unfold pop peek
  split
  · exact ⟨rfl, rfl, rfl, rfl⟩
  · dsimp only
    split
    · exact ⟨rfl, rfl, rfl, rfl⟩
    · exact ⟨rfl, rfl, rfl, rfl⟩

/-- Whatever memory grants, the turns end, and with one of the outcomes. -/
theorem pushFrom_offered {p : QPut} (hsized : p.Sized) (grants : Nat → Bool) (junk : Nat → UInt8) :
    ∀ (fuel k : Nat) (evicted : List QBytes) (q : MsgQueue) (rs : List QBytes), Held q rs → q.cap < 2 ^ 32 →
      2 ^ 32 - q.cap + q.count < fuel →
      (Skewed q p.need → (q.grow ((q.bytes + p.need) % 2 ^ 32) p.need (grants k) junk).isSome = true) →
      ∃ out, pushFrom p grants junk fuel k evicted q = some out ∧ Offered p grants junk k evicted q out := by
  have hneed : 0 < p.need := by
    have hoff := p.payloadOff_bounds
    have h := hsized.need
    unfold qRecHead at hoff
    omega
  intro fuel
  induction fuel with
  | zero => exact fun _ _ _ _ _ _ hfuel _ => absurd hfuel (Nat.not_lt_zero _)
  | succ fuel ih =>
    intro k evicted q rs h hcap hfuel hclear
    unfold pushFrom
    cases hfit : q.fit p.need with
    | some at' =>
      obtain ⟨q', off⟩ := at'
      exact ⟨_, rfl, .store hfit⟩
    | none =>
      dsimp only
      cases hgrow : q.grow ((q.bytes + p.need) % 2 ^ 32) p.need (grants k) junk with
      | some q' =>
        obtain ⟨hheld, hlin, hlt, htarget, -, -, -, -, hcount⟩ := grow_held h hgrow
        have hcap' : q'.cap < 2 ^ 32 := htarget ▸ growTarget_lt q _ _
        -- after a growth the records lie in a line, so no offer is refused for skew
        have hclear' : ¬Skewed q' p.need := by
          obtain hnil | hlin := hlin
          · rintro ⟨top, htop, -⟩
            rw [hheld.count, hnil] at htop
            exact absurd htop.symm (Option.some_ne_none top)
          · exact hlin.not_skewed hheld
        obtain ⟨out, hout, ho⟩ := ih (k + 1) evicted q' rs hheld hcap' (by omega) fun hs => absurd hs hclear'
        exact ⟨out, hout, .grow hgrow ho⟩
      | none =>
        have hclear : ¬Skewed q p.need := by
          intro hs
          have hgrown := hclear hs
          rw [hgrow] at hgrown
          exact Bool.false_ne_true hgrown
        have hroom : ¬Room q p.need := fun hroom => hclear (fit_room h hneed hfit hroom)
        dsimp only
        by_cases hrel : q.reliable = true
        · rw [if_pos hrel]
          exact ⟨_, rfl, .refuse hroom hgrow hrel⟩
        rw [if_neg hrel]
        have hrel := Bool.eq_false_iff.mpr hrel
        by_cases hmore : q.viewing = false ∧ q.count ≠ 0
        · rw [if_pos hmore]
          obtain ⟨hview, hcount⟩ := hmore
          cases rs with
          | nil => exact absurd h.count hcount
          | cons r rs =>
            have hpop := (pop_held h hview).flags (q.dropped + 1) q.pop.parked
            have hcap' : MsgQueue.cap { q.pop with dropped := q.dropped + 1 } = q.cap := pop_cap q
            have hcount' : ({ q.pop with dropped := q.dropped + 1 } : MsgQueue).count = q.count - 1 :=
              pop_count hcount
            obtain ⟨out, hout, ho⟩ := ih (k + 1) (evicted ++ [q.oldest])
              { q.pop with dropped := q.dropped + 1 } rs hpop (hcap'.symm ▸ hcap) (by omega)
              fun hs => absurd (hs.of_pop h hview hrel) hclear
            exact ⟨out, hout, .evict hroom hgrow hrel hview hcount ho⟩
        · rw [if_neg hmore]
          refine ⟨_, rfl, .drop hroom hgrow hrel ?_⟩
          cases hview : q.viewing with
          | true => exact Or.inl rfl
          | false => exact Or.inr (Decidable.of_not_not fun hcount => hmore ⟨hview, hcount⟩)

/-! ## What a push leaves -/

/-- What a fit leaves of the ring's fields. -/
theorem fit_fields {off : Nat} (hfit : q.fit need = some (q', off)) (h : Held q rs) (hneed : 0 < need) :
    q'.cap = q.cap ∧ off + need ≤ q'.cap ∧ (q.count ≠ 0 → q'.tail = q.tail) ∧ q'.reliable = q.reliable ∧
      q'.silent = q.silent ∧ q'.viewing = q.viewing := by
  unfold fit at hfit
  split at hfit
  · exact absurd hfit.symm (Option.some_ne_none _)
  rename_i hcap
  split at hfit
  · rename_i hcount
    obtain ⟨rfl, rfl⟩ := Prod.mk.inj (Option.some.inj hfit)
    refine ⟨rfl, ?_, fun hne => absurd hcount hne, rfl, rfl, rfl⟩
    rw [Nat.zero_add]
    exact Nat.le_of_not_lt hcap
  split at hfit
  · split at hfit
    · obtain ⟨rfl, rfl⟩ := Prod.mk.inj (Option.some.inj hfit)
      exact ⟨rfl, by omega, fun _ => rfl, rfl, rfl, rfl⟩
    split at hfit
    · obtain ⟨rfl, rfl⟩ := Prod.mk.inj (Option.some.inj hfit)
      split
      · rename_i hfour
        have hlen : (writeAt q.buf q.head (writeLe 4 qWrap)).length = q.buf.length := by
          refine length_writeAt ?_
          rw [length_writeLe]
          unfold cap at hfour
          omega
        refine ⟨hlen, ?_, fun _ => rfl, rfl, rfl, rfl⟩
        unfold cap at hcap ⊢
        rw [hlen, Nat.zero_add]
        exact Nat.le_of_not_lt hcap
      · exact ⟨rfl, by omega, fun _ => rfl, rfl, rfl, rfl⟩
    · exact absurd hfit.symm (Option.some_ne_none _)
  split at hfit
  · rename_i hroom
    obtain ⟨rfl, rfl⟩ := Prod.mk.inj (Option.some.inj hfit)
    have htail : q.tail ≤ q.cap := by
      obtain hnil | hlin | ⟨xs, ys, top, -, hwrap⟩ := h.layout
      · rename_i hcount _
        rw [hnil] at h
        exact absurd h.count hcount
      · have hstop := hlin.run.stop_eq
        omega
      · have htop := hwrap.first.stop_eq
        have hfits := hwrap.fits
        omega
    exact ⟨rfl, by omega, fun _ => rfl, rfl, rfl, rfl⟩
  · exact absurd hfit.symm (Option.some_ne_none _)

/-- What a push does to a ring that holds `rs`: the `n` oldest go, and the new record comes behind
the others, or is refused or dropped. -/
structure PushedRight (p : QPut) (q : MsgQueue) (rs evicted : List QBytes) (out : Pushed) (n : Nat) : Prop where
  oldest : n ≤ rs.length
  evicted : out.evicted = evicted ++ rs.take n
  held : Held out.q (rs.drop n ++ out.stored.toList)
  whole : ∀ r, out.stored = some r → qRecOf r = p.record
  reliable : q.reliable = true → n = 0 ∧ (out.refused = true ↔ out.stored = none)
  besteffort : q.reliable = false → out.refused = false
  pinned : q.viewing = true → n = 0 ∧ out.q.tail = q.tail ∧ out.q.cap = q.cap
  lost : out.refused = false →
    out.lost = if q.silent then 0 else out.evicted.length + (if out.stored = none then 1 else 0)
  kept : out.q.reliable = q.reliable ∧ out.q.silent = q.silent ∧ out.q.viewing = q.viewing
  bounded : q.cap < 2 ^ 32 → out.q.cap < 2 ^ 32

/-- Whatever the outcome, the ring holds what it should. -/
theorem Offered.right {p : QPut} (hsized : p.Sized) {grants : Nat → Bool} {junk : Nat → UInt8} {k : Nat}
    {evicted : List QBytes} {out : Pushed} (ho : Offered p grants junk k evicted q out) {rs : List QBytes}
    (h : Held q rs) : ∃ n, PushedRight p q rs evicted out n := by
  have hneed : 0 < p.need := by
    have hoff := p.payloadOff_bounds
    have h := hsized.need
    unfold qRecHead at hoff
    omega
  induction ho generalizing rs with
  | @store k evicted q q' off hfit =>
    obtain ⟨hcap, hfits, htail, hrel, hsilent, hview⟩ := fit_fields hfit h hneed
    obtain ⟨hlen, hsame, hrec, hrecord⟩ := @put_record q' p off hsized hfits
    -- where the record was put it is read back
    have hplaced : Placed (q'.put p off).buf off (slice (q'.put p off).buf off p.need) :=
      placed_slice (hlen.symm ▸ hfits)
    have hrlen := @length_slice _ (q'.put p off).buf off p.need (hlen.symm ▸ hfits)
    have hheld := fit_held h hneed hfit hlen hsame hrec hplaced hrlen
    refine ⟨0, Nat.zero_le _, (List.append_nil _).symm, hheld, fun r hr => Option.some.inj hr ▸ hrecord,
      fun _ => ⟨rfl, fun hf => absurd hf Bool.false_ne_true, fun hs => absurd hs (Option.some_ne_none _)⟩,
      fun _ => rfl, fun hv => ⟨rfl, htail ?_, hlen.trans hcap⟩, fun _ => ?_, ⟨hrel, hsilent, hview⟩, fun hlt => ?_⟩
    · intro hcount
      exact (h.viewed hv).1 (List.eq_nil_of_length_eq_zero (h.count ▸ hcount))
    · show (if q'.silent then 0 else evicted.length) = _
      rw [hsilent, if_neg (Option.some_ne_none _)]
      rfl
    · show (q'.put p off).buf.length < 2 ^ 32
      rw [hlen, show q'.buf.length = q.cap from hcap]
      exact hlt
  | @grow k evicted q q' out hgrow _ ih =>
    obtain ⟨hheld, -, -, htarget, hview, hrel, hsilent, hview', -⟩ := grow_held h hgrow
    obtain ⟨n, hn⟩ := ih hheld
    refine ⟨n, hn.oldest, hn.evicted, hn.held, hn.whole, hrel ▸ hn.reliable, hrel ▸ hn.besteffort,
      fun hv => absurd (hview.symm.trans hv) Bool.false_ne_true, hsilent ▸ hn.lost,
      ⟨hn.kept.1.trans hrel, hn.kept.2.1.trans hsilent, hn.kept.2.2.trans hview'⟩, fun _ => ?_⟩
    exact hn.bounded (htarget ▸ growTarget_lt q _ _)
  | @refuse k evicted q _ _ hrel =>
    refine ⟨0, Nat.zero_le _, (List.append_nil _).symm, ?_, fun r hr => absurd hr.symm (Option.some_ne_none r),
      fun _ => ⟨rfl, fun _ => rfl, fun _ => rfl⟩, fun hf => absurd (hrel.symm.trans hf).symm Bool.false_ne_true,
      fun _ => ⟨rfl, rfl, rfl⟩, fun hf => absurd hf.symm Bool.false_ne_true, ⟨rfl, rfl, rfl⟩, fun hlt => hlt⟩
    show Held { q with parked := true } (rs ++ [])
    rw [List.append_nil]
    exact h.flags q.dropped true
  | @evict k evicted q out _ _ hrel hview hcount _ ih =>
    cases rs with
    | nil => exact absurd h.count hcount
    | cons r rs =>
      obtain ⟨n, hn⟩ := ih ((pop_held h hview).flags (q.dropped + 1) q.pop.parked)
      obtain ⟨hrel', hsilent, hview', -⟩ := pop_fields q
      refine ⟨n + 1, Nat.succ_le_succ hn.oldest, ?_, hn.held, hn.whole,
        fun hr => absurd (hrel.symm.trans hr) Bool.false_ne_true, fun _ => hn.besteffort (hrel'.trans hrel),
        fun hv => absurd (hview.symm.trans hv) Bool.false_ne_true, fun hr => ?_,
        ⟨hn.kept.1.trans hrel', hn.kept.2.1.trans hsilent, hn.kept.2.2.trans hview'⟩, fun hlt => ?_⟩
      · rw [hn.evicted, h.oldest, List.append_assoc]
        rfl
      · have hlost := hn.lost hr
        have hsilent' : ({ q.pop with dropped := q.dropped + 1 } : MsgQueue).silent = q.silent := hsilent
        rw [hsilent'] at hlost
        exact hlost
      · exact hn.bounded (show q.pop.cap < 2 ^ 32 from (pop_cap q).symm ▸ hlt)
  | @drop k evicted q _ _ hrel _ =>
    refine ⟨0, Nat.zero_le _, (List.append_nil _).symm, ?_, fun r hr => absurd hr.symm (Option.some_ne_none r),
      fun hr => absurd (hrel.symm.trans hr) Bool.false_ne_true, fun _ => rfl, fun _ => ⟨rfl, rfl, rfl⟩, fun _ => ?_,
      ⟨rfl, rfl, rfl⟩, fun hlt => hlt⟩
    · show Held { q with dropped := q.dropped + 1 } (rs ++ [])
      rw [List.append_nil]
      exact h.flags (q.dropped + 1) q.parked
    · rfl

end MsgQueue

end Rant.Node
