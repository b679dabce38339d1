import Rant.Lib.Tiling
import Rant.Lib.Fragment
import Rant.Transport.Reader
/-!
# The reader's invariant and its ledger

What a reader lane holds is measured against a log of committed samples, the
list of everything the writer ever sealed. The log is ghost: `Committed` names a
sample's seqnos and bytes, and `RInv` says of a lane that

- an active assembly belongs to one committed sample and agrees with its bytes
  wherever a fragment is held (`AsmOk`),
- the head slot stands at `deliver_upto` and the ahead slot past it,
- a lane that never accepted a DATA holds nothing, and
- a parked descriptor is the one the writer committed at `deliver_upto`.

Alongside, every function's effects are booked. `Moves x x'` says the effects
added between two states tile `[x.deliver_upto, x'.deliver_upto)` with accepted
deliveries and reported losses (`Effect.span`), and that every sink call was made
with a committed sample (`Genuine`). Both compose, so each function's lemma is
the chain of its steps' lemmas; a step that only arms an ack is `Quiet`.

The lemmas are about a reliable, non-directed topic: a directed one skips floors
without a report on purpose.
-/

namespace Rant.Transport

open Rant.Lib
open Rant.Lib.Fragment (Agrees fragment writeAt)

/-! ## The log -/

/-- A committed sample: its seqnos, its bytes and, when it was sent as a shared
memory chunk, its descriptor. -/
structure Committed where
  base : Nat
  count : Nat
  bytes : Bytes
  desc : Option Bytes
  deriving Repr, DecidableEq

/-- The log's samples have fragments enough for their bytes and are told apart by
their base. -/
structure LogOk (F : Nat) (L : List Committed) : Prop where
  count_pos : ∀ c ∈ L, 0 < c.count
  fits : ∀ c ∈ L, c.bytes.length ≤ c.count * F
  desc_len : ∀ c ∈ L, ∀ d, c.desc = some d → d.length = shmDescBytes
  base_inj : ∀ c ∈ L, ∀ d ∈ L, c.base = d.base → c = d

/-- A DATA submessage is a fragment of a committed sample. -/
structure DataOk (F : Nat) (L : List Committed) (m : DataMsg) : Prop where
  sample : ∃ c ∈ L, m.seqno = c.base + m.frag ∧ m.frag < c.count ∧ m.count = c.count ∧
    m.sampleLen = c.bytes.length ∧ m.frag * F ≤ c.bytes.length ∧
    m.payload = fragment F c.bytes m.frag

/-- An SHM-DATA submessage names a committed chunk. -/
structure ShmOk (L : List Committed) (m : ShmMsg) : Prop where
  sample : ∃ c ∈ L, m.base = c.base ∧ m.count = c.count ∧ c.desc = some m.desc

/-! ## Effects as a ledger -/

/-- The seqnos an effect accounts for: an accepted delivery's, or a reported loss's. -/
def Effect.span : Effect → Option Span
  | .lost first count => some ⟨first, count⟩
  | .tooBig base count _ => some ⟨base, count⟩
  | .message base count _ refused => if refused then none else some ⟨base, count⟩
  | .shm base count _ ok => if 0 < ok then some ⟨base, count⟩ else none
  | .wake | .arm _ => none

/-- The ledger of a list of effects. -/
def spans (es : List Effect) : List Span := es.filterMap Effect.span

@[simp] theorem spans_append (es fs : List Effect) : spans (es ++ fs) = spans es ++ spans fs :=
  List.filterMap_append

/-- A sink call was made with a committed sample, byte for byte. -/
def Genuine (L : List Committed) : Effect → Prop
  | .message base count bytes _ => ∃ c ∈ L, c.base = base ∧ c.count = count ∧ c.bytes = bytes
  | .shm base count desc _ => ∃ c ∈ L, c.base = base ∧ c.count = count ∧ c.desc = some desc
  | .lost _ _ | .tooBig _ _ _ | .wake | .arm _ => True

/-- `x'` is `x` after effects that tile the seqnos `deliver_upto` passed. -/
def Moves (L : List Committed) (x x' : ReaderSide) : Prop :=
  ∃ es, x'.fx = x.fx ++ es ∧ (∀ f ∈ es, Genuine L f) ∧
    Tiles x.r.deliverUpto (spans es) x'.r.deliverUpto

variable {L : List Committed} {y z : ReaderSide}

variable {x : ReaderSide}

theorem moves_trans (h : Moves L x y) (h' : Moves L y z) : Moves L x z := by
  obtain ⟨es, hfx, hgen, htiles⟩ := h
  obtain ⟨es', hfx', hgen', htiles'⟩ := h'
  refine ⟨es ++ es', by rw [hfx', hfx, List.append_assoc], ?_, ?_⟩
  · intro f hf
    rcases List.mem_append.mp hf with hf | hf
    · exact hgen f hf
    · exact hgen' f hf
  · rw [spans_append]
    exact tiles_append htiles htiles'

/-! ## The lane's invariant -/

/-- Slot `a` assembles the committed sample `c`: it has room for it, its front is held
and the bytes of every held fragment are the sample's. -/
structure AsmFor (F : Nat) (c : Committed) (a : Assembly) : Prop where
  base : a.base = c.base
  count : a.count = c.count
  len : a.len = c.bytes.length
  fits : a.len ≤ a.buf.length
  bitmap_fits : (a.count + 7) / 8 ≤ a.bitmapCap
  low_le : a.low ≤ a.count
  front : ∀ k, k < a.low → a.bitmap k = true
  agrees : Agrees F c.bytes a.buf fun k => k < a.count ∧ a.bitmap k = true

/-- An active slot assembles some committed sample. -/
def AsmOk (F : Nat) (L : List Committed) (a : Assembly) : Prop :=
  a.active = true → ∃ c ∈ L, AsmFor F c a

variable {F : Nat}

variable {a : Assembly}

theorem asmOk_inactive (h : a.active = false) :
    AsmOk F L a := by
  intro hact
  rw [h] at hact
  exact absurd hact Bool.false_ne_true

/-- The reader lane's invariant. -/
structure RInv (F : Nat) (L : List Committed) (r : ReaderProxy) : Prop where
  cur_ok : AsmOk F L r.cur
  next_ok : AsmOk F L r.next
  cur_base : r.cur.active = true → r.cur.base = r.deliverUpto
  next_base : r.next.active = true → r.deliverUpto < r.next.base
  idle : r.started = false → r.cur.active = false ∧ r.next.active = false ∧ r.parked = false ∧
    r.deliverUpto = 0
  held : r.parkedShm = true → r.parked = true ∧ r.cur.active = false ∧
    r.cur.base = r.deliverUpto ∧
    ∃ c ∈ L, c.base = r.cur.base ∧ c.count = r.cur.count ∧
      c.desc = some (r.cur.buf.take shmDescBytes)

variable {r : ReaderProxy}

/-- A lane that stands past seqno 0 has a position. -/
theorem RInv.started_of_pos (h : RInv F L r)
    (hpos : 0 < r.deliverUpto) : r.started = true := by
  rw [← Bool.not_eq_false]
  intro hst
  exact absurd (h.idle hst).2.2.2 (Nat.pos_iff_ne_zero.mp hpos)

/-- A parked lane has a position. -/
theorem RInv.started_of_parked (h : RInv F L r)
    (hp : r.parked = true) : r.started = true := by
  rw [← Bool.not_eq_false]
  intro hst
  exact Bool.noConfusion ((h.idle hst).2.2.1.symm.trans hp)

/-- A lane that is not parked holds no descriptor. -/
theorem RInv.not_held (h : RInv F L r)
    (hp : r.parked = false) : r.parkedShm = false := by
  rw [Bool.eq_false_iff]
  intro hs
  rw [(h.held hs).1] at hp
  exact Bool.noConfusion hp

/-- The fields of a reader proxy the invariant reads agree. -/
structure SameCore (r r' : ReaderProxy) : Prop where
  deliverUpto : r'.deliverUpto = r.deliverUpto
  cur : r'.cur = r.cur
  next : r'.next = r.next
  started : r'.started = r.started
  parked : r'.parked = r.parked
  parkedShm : r'.parkedShm = r.parkedShm
  used : r'.used = r.used

theorem sameCore_refl (r : ReaderProxy) : SameCore r r := ⟨rfl, rfl, rfl, rfl, rfl, rfl, rfl⟩

theorem sameCore_trans {r' r'' : ReaderProxy} (h : SameCore r r') (h' : SameCore r' r'') :
    SameCore r r'' :=
  ⟨h'.deliverUpto.trans h.deliverUpto, h'.cur.trans h.cur, h'.next.trans h.next,
    h'.started.trans h.started, h'.parked.trans h.parked, h'.parkedShm.trans h.parkedShm,
    h'.used.trans h.used⟩

theorem RInv.congr {r' : ReaderProxy} (h : RInv F L r) (hs : SameCore r r') : RInv F L r' := by
  obtain ⟨h1, h2, h3, h4, h5, h6, -⟩ := hs
  obtain ⟨hc, hn, hcb, hnb, hi, hh⟩ := h
  refine ⟨?_, ?_, ?_, ?_, ?_, ?_⟩
  · rw [h2]; exact hc
  · rw [h3]; exact hn
  · rw [h1, h2]; exact hcb
  · rw [h1, h3]; exact hnb
  · rw [h1, h2, h3, h4, h5]; exact hi
  · rw [h1, h2, h5, h6]; exact hh

/-- A growing log keeps the invariant. -/
theorem RInv.mono {L' : List Committed} (h : RInv F L r)
    (hsub : ∀ c ∈ L, c ∈ L') : RInv F L' r := by
  refine ⟨fun ha => ?_, fun ha => ?_, h.cur_base, h.next_base, h.idle, fun hs => ?_⟩
  · obtain ⟨c, hc, hrest⟩ := h.cur_ok ha
    exact ⟨c, hsub c hc, hrest⟩
  · obtain ⟨c, hc, hrest⟩ := h.next_ok ha
    exact ⟨c, hsub c hc, hrest⟩
  · obtain ⟨hp, ha, hb, c, hc, hrest⟩ := h.held hs
    exact ⟨hp, ha, hb, c, hsub c hc, hrest⟩

/-! ## Quiet steps -/

/-- An effect for the scheduler alone. -/
def Silent : Effect → Prop
  | .wake | .arm _ => True
  | _ => False

/-- A step that changes nothing the invariant reads and calls no sink. -/
def Quiet (x x' : ReaderSide) : Prop :=
  SameCore x.r x'.r ∧ ∃ es, x'.fx = x.fx ++ es ∧ ∀ f ∈ es, Silent f

variable {x' : ReaderSide}

theorem quiet_of_fx_eq (hr : SameCore x.r x'.r) (hfx : x'.fx = x.fx) :
    Quiet x x' :=
  ⟨hr, [], by rw [hfx, List.append_nil], fun _ h => absurd h List.not_mem_nil⟩

theorem quiet_refl (x : ReaderSide) : Quiet x x := quiet_of_fx_eq (sameCore_refl x.r) rfl

theorem quiet_trans (h : Quiet x y) (h' : Quiet y z) : Quiet x z := by
  obtain ⟨hr, es, hfx, hes⟩ := h
  obtain ⟨hr', es', hfx', hes'⟩ := h'
  refine ⟨sameCore_trans hr hr', es ++ es', by rw [hfx', hfx, List.append_assoc], ?_⟩
  intro f hf
  rcases List.mem_append.mp hf with hf | hf
  · exact hes f hf
  · exact hes' f hf

theorem quiet_emit (x : ReaderSide) {e : Effect} (he : Silent e) : Quiet x (x.emit e) :=
  ⟨sameCore_refl x.r, [e], rfl, fun f hf => by rw [List.mem_singleton.mp hf]; exact he⟩

theorem quiet_stat (x : ReaderSide) (f : RepairStats → RepairStats) : Quiet x (x.stat f) :=
  quiet_of_fx_eq (sameCore_refl x.r) rfl

theorem spans_silent : ∀ {es : List Effect}, (∀ f ∈ es, Silent f) → spans es = []
  | [], _ => rfl
  | e :: es, h => by
    have he := h e List.mem_cons_self
    have hrec := spans_silent fun f hf => h f (List.mem_cons_of_mem e hf)
    unfold spans at hrec ⊢
    cases e with
    | wake => exact hrec
    | arm t => exact hrec
    | lost _ _ => exact he.elim
    | tooBig _ _ _ => exact he.elim
    | message _ _ _ _ => exact he.elim
    | shm _ _ _ _ => exact he.elim

theorem genuine_silent {f : Effect} (h : Silent f) : Genuine L f := by
  cases f with
  | wake => trivial
  | arm t => trivial
  | lost _ _ => trivial
  | tooBig _ _ _ => trivial
  | message _ _ _ _ => exact h.elim
  | shm _ _ _ _ => exact h.elim

theorem Quiet.moves (h : Quiet x x') : Moves L x x' := by
  obtain ⟨hr, es, hfx, hes⟩ := h
  refine ⟨es, hfx, fun f hf => genuine_silent (hes f hf), ?_⟩
  rw [spans_silent hes, tiles_nil]
  exact hr.deliverUpto.symm

theorem readerArm_quiet (x : ReaderSide) (isHb : Bool) : Quiet x (readerArm x isHb) := by
  unfold readerArm
  split
  next => exact quiet_refl x
  split
  next => exact quiet_stat x _
  next => exact quiet_stat x _

theorem readerAckNow_quiet (x : ReaderSide) (force isHb : Bool) :
    Quiet x (readerAckNow x force isHb) := by
  refine quiet_trans (readerArm_quiet x isHb) ?_
  exact ⟨⟨rfl, rfl, rfl, rfl, rfl, rfl, rfl⟩, [.wake], rfl,
    fun f hf => by rw [List.mem_singleton.mp hf]; trivial⟩

theorem readerAckDelivered_quiet (x : ReaderSide) (now : Nat) :
    Quiet x (readerAckDelivered x now) := by
  unfold readerAckDelivered
  split
  next => exact readerAckNow_quiet x true false
  have hforce : Quiet x { x with r := { x.r with ackForce := true } } :=
    quiet_of_fx_eq ⟨rfl, rfl, rfl, rfl, rfl, rfl, rfl⟩ rfl
  dsimp only
  split
  next => exact hforce
  refine quiet_trans hforce (quiet_trans (readerArm_quiet _ false) ?_)
  exact ⟨⟨rfl, rfl, rfl, rfl, rfl, rfl, rfl⟩, [.arm (now + ackDelayUs)], rfl,
    fun f hf => by rw [List.mem_singleton.mp hf]; trivial⟩

theorem noteAckReq_quiet (t : Topic) (x : ReaderSide) (ackReq : Bool) :
    Quiet x (noteAckReq t x ackReq) := by
  unfold noteAckReq
  split
  next => exact quiet_of_fx_eq ⟨rfl, rfl, rfl, rfl, rfl, rfl, rfl⟩ rfl
  next => exact quiet_refl x

theorem ackOld_quiet (x : ReaderSide) : Quiet x (ackOld x) := by
  unfold ackOld
  split
  next => exact readerAckNow_quiet x true false
  next => exact quiet_refl x

theorem endProbe_quiet (x : ReaderSide) (now : Nat) : Quiet x (endProbe x now) :=
  quiet_of_fx_eq ⟨rfl, rfl, rfl, rfl, rfl, rfl, rfl⟩ rfl

theorem armGap_quiet (x : ReaderSide) : Quiet x (armGap x) := by
  unfold armGap
  split
  next => exact quiet_refl x
  split
  next => exact quiet_emit x trivial
  next => exact readerAckNow_quiet x false false

/-! ## Assemblies -/

/-- The contiguous front never passes the sample's end, and everything below it is held. -/
theorem asmFront_spec {bitmap : Nat → Bool} {count : Nat} : ∀ (n low : Nat), low ≤ count →
    (∀ k, k < low → bitmap k = true) →
    asmFront bitmap count n low ≤ count ∧
      ∀ k, k < asmFront bitmap count n low → bitmap k = true
  | 0, _, hle, hfront => ⟨hle, hfront⟩
  | n + 1, low, hle, hfront => by
    unfold asmFront
    split
    next h =>
      refine asmFront_spec n (low + 1) h.1 ?_
      intro k hk
      by_cases hlow : k = low
      · rw [hlow]
        exact h.2
      · exact hfront k (by omega)
    next => exact ⟨hle, hfront⟩

/-- Fitting the buffers changes neither whether the slot is active nor its position, and
when it succeeds there is room. -/
theorem asmFit_spec (al : Alloc) (a : Assembly) (len count : Nat) :
    (asmFit al a len count).1.active = a.active ∧ (asmFit al a len count).1.base = a.base ∧
      ((asmFit al a len count).2 = true → len ≤ (asmFit al a len count).1.buf.length ∧
        (count + 7) / 8 ≤ (asmFit al a len count).1.bitmapCap) := by
  have hgrow : a.buf.length < len → len ≤ (growTo al a.buf len).length := by
    intro h
    unfold growTo
    rw [List.length_append, List.length_map, List.length_range]
    omega
  unfold asmFit
  dsimp only
  by_cases hbuf : a.buf.length < len
  · simp only [hbuf, if_true, true_and]
    split
    next => exact ⟨rfl, rfl, fun h => absurd h Bool.false_ne_true⟩
    split
    next => exact ⟨rfl, rfl, fun h => absurd h Bool.false_ne_true⟩
    split
    next => exact ⟨rfl, rfl, fun _ => ⟨hgrow hbuf, Nat.le_refl _⟩⟩
    next h => exact ⟨rfl, rfl, fun _ => ⟨hgrow hbuf, Nat.le_of_not_lt h⟩⟩
  · simp only [hbuf, if_false, false_and]
    split
    next => exact ⟨rfl, rfl, fun h => absurd h Bool.false_ne_true⟩
    split
    next => exact ⟨rfl, rfl, fun _ => ⟨Nat.le_of_not_lt hbuf, Nat.le_refl _⟩⟩
    next h => exact ⟨rfl, rfl, fun _ => ⟨Nat.le_of_not_lt hbuf, Nat.le_of_not_lt h⟩⟩

/-- A slot with room is left alone. -/
theorem asmFit_room {al : Alloc} {len count : Nat} (hbuf : len ≤ a.buf.length)
    (hbits : (count + 7) / 8 ≤ a.bitmapCap) : asmFit al a len count = (a, true) := by
  unfold asmFit
  simp only [Nat.not_lt.mpr hbuf, Nat.not_lt.mpr hbits, if_false, false_and]

/-- A slot started for a sample holds none of it. -/
theorem asmStart_for {c : Committed} {base count len : Nat} (hbase : base = c.base)
    (hcount : count = c.count) (hlen : len = c.bytes.length) (hbuf : len ≤ a.buf.length)
    (hbits : (count + 7) / 8 ≤ a.bitmapCap) :
    AsmFor F c (asmStart a base count len) where
  base := hbase
  count := hcount
  len := hlen
  fits := hbuf
  bitmap_fits := hbits
  low_le := Nat.zero_le _
  front k hk := absurd hk (Nat.not_lt_zero k)
  agrees := by
    refine Fragment.agrees_none fun k hk => ?_
    have hlt : k < 8 * ((count + 7) / 8) := by
      have : k < count := hk.1
      omega
    have hbit : (asmStart a base count len).bitmap k = false := if_pos hlt
    rw [hbit] at hk
    exact absurd hk.2 Bool.false_ne_true

/-- Storing one of the sample's own fragments keeps the slot's agreement with it. -/
theorem asmStore_for {frag : Nat} {c : Committed} (hF : 0 < F) (h : AsmFor F c a)
    (hoff : frag * F ≤ c.bytes.length) :
    AsmFor F c (asmStore F a frag (fragment F c.bytes frag)) := by
  have hroom : c.bytes.length ≤ a.buf.length := by
    rw [← h.len]
    exact h.fits
  -- an empty payload is not copied, which is what copying it would do
  have hbuf : (asmStore F a frag (fragment F c.bytes frag)).buf
      = writeAt a.buf (frag * F) (fragment F c.bytes frag) := by
    show (if fragment F c.bytes frag ≠ [] ∧
        frag * F + (fragment F c.bytes frag).length ≤ a.buf.length then _ else _) = _
    split
    next => rfl
    next hcond =>
      have hnil : fragment F c.bytes frag = [] := by
        apply Classical.byContradiction
        intro hne
        exact hcond ⟨hne, Fragment.fragment_fits hroom hoff⟩
      rw [hnil]
      unfold writeAt
      simp
  have hlen : (asmStore F a frag (fragment F c.bytes frag)).buf.length = a.buf.length := by
    rw [hbuf]
    exact Fragment.length_writeAt (Fragment.fragment_fits hroom hoff)
  have hset : ∀ k, a.bitmap k = true → (if k = frag then true else a.bitmap k) = true := by
    intro k hk
    split
    next => rfl
    next => exact hk
  have hlow : (asmStore F a frag (fragment F c.bytes frag)).low ≤ a.count ∧
      ∀ k, k < (asmStore F a frag (fragment F c.bytes frag)).low →
        (if k = frag then true else a.bitmap k) = true := by
    show (if frag = a.low then _ else _) ≤ a.count ∧
      ∀ k, k < (if frag = a.low then _ else _) → _
    split
    next => exact asmFront_spec _ _ h.low_le fun k hk => hset k (h.front k hk)
    next => exact ⟨h.low_le, fun k hk => hset k (h.front k hk)⟩
  refine ⟨h.base, h.count, h.len, ?_, h.bitmap_fits, hlow.1, hlow.2, ?_⟩
  · rw [hlen]
    exact h.fits
  · rw [hbuf]
    refine Fragment.agrees_mono (Fragment.agrees_write hF h.agrees hroom hoff) ?_
    intro k hk
    by_cases hkf : k = frag
    · exact Or.inl hkf
    refine Or.inr ⟨hk.1, ?_⟩
    have hbit := hk.2
    rw [show (asmStore F a frag (fragment F c.bytes frag)).bitmap k = a.bitmap k from
      if_neg hkf] at hbit
    exact hbit

/-- A slot that is complete starts with its sample's bytes. -/
theorem asmFor_complete {c : Committed} (hF : 0 < F) (h : AsmFor F c a)
    (hfits : c.bytes.length ≤ c.count * F) (hlow : a.low = a.count) :
    a.buf.take a.len = c.bytes := by
  have hroom : c.bytes.length ≤ a.buf.length := by
    rw [← h.len]
    exact h.fits
  rw [h.len]
  refine Fragment.agrees_complete hF h.agrees hroom hfits ?_
  intro k hk
  rw [← h.count] at hk
  exact ⟨hk, h.front k (by omega)⟩

/-! ## Delivery -/

/-- A step keeps the invariant and books what it moved. -/
structure Kept (F : Nat) (L : List Committed) (x x' : ReaderSide) : Prop where
  inv : RInv F L x'.r
  moves : Moves L x x'
  started : x'.r.started = x.r.started
  used : x'.r.used = x.r.used

theorem kept_of_quiet (h : RInv F L x.r) (hq : Quiet x x') : Kept F L x x' :=
  ⟨h.congr hq.1, hq.moves, hq.1.started, hq.1.used⟩

theorem kept_refl (h : RInv F L x.r) :
    Kept F L x x :=
  kept_of_quiet h (quiet_refl x)

theorem kept_trans (h : Kept F L x y) (h' : Kept F L y z) : Kept F L x z :=
  ⟨h'.inv, moves_trans h.moves h'.moves, h'.started.trans h.started, h'.used.trans h.used⟩

/-- Any step followed by a quiet one. -/
theorem Kept.quiet (h : Kept F L x y) (hq : Quiet y z) : Kept F L x z :=
  kept_trans h (kept_of_quiet h.inv hq)

@[simp] theorem readerSettle_deliverUpto (r : ReaderProxy) :
    (readerSettle r).deliverUpto = r.deliverUpto := by
  unfold readerSettle
  split <;> (try split) <;> (try split) <;> rfl

@[simp] theorem readerSettle_started (r : ReaderProxy) :
    (readerSettle r).started = r.started := by
  unfold readerSettle
  split <;> (try split) <;> (try split) <;> rfl

@[simp] theorem readerSettle_used (r : ReaderProxy) : (readerSettle r).used = r.used := by
  unfold readerSettle
  split <;> (try split) <;> (try split) <;> rfl

@[simp] theorem readerSettle_parked (r : ReaderProxy) : (readerSettle r).parked = r.parked := by
  unfold readerSettle
  split <;> (try split) <;> (try split) <;> rfl

/-- Once `deliver_upto` moved past the head, settling restores the invariant. -/
theorem readerSettle_inv (hcur : r.cur.active = false) (hnext : AsmOk F L r.next)
    (hst : r.started = true) (hs : r.parkedShm = false) : RInv F L (readerSettle r) := by
  have hidle : ∀ {P : Prop}, r.started = false → P := by
    intro P h
    rw [hst] at h
    exact Bool.noConfusion h
  have hheld : ∀ {P : Prop}, r.parkedShm = true → P := by
    intro P h
    rw [hs] at h
    exact Bool.noConfusion h
  have hno : ∀ {P : Prop}, r.cur.active = true → P := by
    intro P h
    rw [hcur] at h
    exact Bool.noConfusion h
  unfold readerSettle
  split
  next h =>
    exact ⟨asmOk_inactive hcur, hnext, hno, fun ha => by rw [h] at ha; exact Bool.noConfusion ha,
      hidle, hheld⟩
  next h =>
    split
    next =>
      -- the floor passed the sample held ahead
      exact ⟨asmOk_inactive hcur, asmOk_inactive rfl, hno, fun ha => Bool.noConfusion ha,
        hidle, hheld⟩
    next hge =>
      split
      next heq =>
        -- the sample held ahead is the head now
        exact ⟨hnext, asmOk_inactive rfl, fun _ => heq.1, fun ha => Bool.noConfusion ha,
          hidle, hheld⟩
      next hne =>
        refine ⟨asmOk_inactive hcur, hnext, hno, fun _ => ?_, hidle, hheld⟩
        have : r.next.base ≠ r.deliverUpto := fun he => hne ⟨he, hcur⟩
        omega

/-- Dropping the head and moving on restores the invariant. -/
theorem readerMoveTo_inv {upto : Nat} (hnext : AsmOk F L r.next)
    (hst : r.started = true) (hs : r.parkedShm = false) :
    RInv F L (readerMoveTo r upto) :=
  readerSettle_inv rfl hnext hst hs

@[simp] theorem readerMoveTo_deliverUpto (r : ReaderProxy) (upto : Nat) :
    (readerMoveTo r upto).deliverUpto = upto := readerSettle_deliverUpto _

@[simp] theorem readerMoveTo_started (r : ReaderProxy) (upto : Nat) :
    (readerMoveTo r upto).started = r.started := readerSettle_started _

@[simp] theorem readerMoveTo_used (r : ReaderProxy) (upto : Nat) :
    (readerMoveTo r upto).used = r.used := readerSettle_used _

@[simp] theorem readerMoveTo_parked (r : ReaderProxy) (upto : Nat) :
    (readerMoveTo r upto).parked = r.parked := readerSettle_parked _

/-- One effect that accounts for the seqnos `deliver_upto` passes. -/
theorem moves_span {e : Effect} {s : Span} (hfx : x'.fx = x.fx ++ [e])
    (hgen : Genuine L e) (hspan : e.span = some s) (hbase : s.base = x.r.deliverUpto)
    (hcount : 0 < s.count) (hto : x'.r.deliverUpto = s.base + s.count) : Moves L x x' := by
  refine ⟨[e], hfx, fun f hf => by rw [List.mem_singleton.mp hf]; exact hgen, ?_⟩
  have hs : spans [e] = [s] := by
    unfold spans
    rw [List.filterMap_cons, hspan]
    rfl
  rw [hs, hto]
  exact ⟨hbase, hcount, rfl⟩

/-- One sink call that refused or failed, with `deliver_upto` in place. -/
theorem moves_refused {e : Effect} (hfx : x'.fx = x.fx ++ [e]) (hgen : Genuine L e)
    (hspan : e.span = none) (hto : x'.r.deliverUpto = x.r.deliverUpto) : Moves L x x' := by
  refine ⟨[e], hfx, fun f hf => by rw [List.mem_singleton.mp hf]; exact hgen, ?_⟩
  have hs : spans [e] = [] := by
    unfold spans
    rw [List.filterMap_cons, hspan]
    rfl
  rw [hs, hto]
  rfl

/-- The delivery loop hands up committed samples, in order, and parks a refused one. -/
theorem deliverLoop_kept {F : Nat} {L : List Committed} {t : Topic} (sink : Sink) (hF : 0 < F)
    (hL : LogOk F L) (ht : t.reliable) : ∀ (n : Nat) (x : ReaderSide) (d : Bool),
      RInv F L x.r → x.r.started = true → x.r.parked = false →
      Kept F L x (deliverLoop t sink n x d).1
  | 0, x, d, h, _, _ => kept_refl h
  | n + 1, x, d, h, hst, hp => by
    unfold deliverLoop
    split
    next hhead =>
      obtain ⟨c, hc, hfor⟩ := h.cur_ok hhead.1
      have hbytes : x.r.cur.buf.take x.r.cur.len = c.bytes :=
        asmFor_complete hF hfor (hL.fits c hc) hhead.2
      have hgen : ∀ refused, Genuine L (.message x.r.cur.base x.r.cur.count
          (x.r.cur.buf.take x.r.cur.len) refused) :=
        fun _ => ⟨c, hc, hfor.base.symm, hfor.count.symm, hbytes.symm⟩
      dsimp only
      split
      next href =>
        -- parked: the head stays where it is
        refine ⟨?_, moves_refused rfl (hgen _) ?_ rfl, rfl, rfl⟩
        · refine ⟨h.cur_ok, h.next_ok, h.cur_base, h.next_base, ?_, ?_⟩
          · intro hs
            exact Bool.noConfusion (hst.symm.trans hs)
          · intro hs
            exact Bool.noConfusion ((h.not_held hp).symm.trans hs)
        · rw [href.1]
          rfl
      next hacc =>
        have hacc' : sink.refuses x.fx (x.r.cur.buf.take x.r.cur.len) = false := by
          rw [Bool.eq_false_iff]
          exact fun hr => hacc ⟨hr, ht⟩
        refine kept_trans ⟨?_, ?_, ?_, ?_⟩
          (deliverLoop_kept sink hF hL ht n _ true ?_ ?_ ?_)
        · exact readerMoveTo_inv h.next_ok hst (h.not_held hp)
        · refine moves_span (s := ⟨x.r.cur.base, x.r.cur.count⟩) rfl (hgen _) ?_
            (h.cur_base hhead.1) ?_ (readerMoveTo_deliverUpto _ _)
          · rw [hacc']
            rfl
          · show 0 < x.r.cur.count
            rw [hfor.count]
            exact hL.count_pos c hc
        · exact readerMoveTo_started _ _
        · exact readerMoveTo_used _ _
        · exact readerMoveTo_inv h.next_ok hst (h.not_held hp)
        · rw [← hst]
          exact readerMoveTo_started _ _
        · rw [← hp]
          exact readerMoveTo_parked _ _
    next => exact kept_refl h

/-- `i_rant_reader_deliver` keeps the invariant and books what it moved. -/
theorem readerDeliver_kept {t : Topic} {sink : Sink} {now : Nat} (hF : 0 < F)
    (hL : LogOk F L) (ht : t.reliable) (h : RInv F L x.r) (hst : x.r.started = true)
    (hp : x.r.parked = false) :
    Kept F L x (readerDeliver t sink x now) := by
  have hloop := deliverLoop_kept sink hF hL ht 2 x false h hst hp
  unfold readerDeliver
  split
  next x' d hx' =>
    rw [hx'] at hloop
    split
    next => exact hloop.quiet (readerAckDelivered_quiet x' now)
    next => exact hloop

end Rant.Transport
