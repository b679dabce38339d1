import Rant.Transport.ReaderSlots
import Rant.Transport.Nack
/-!
# What an ACKNACK asks for

The ACKNACK of a lane is based at the contiguous front and asks for numbers that are neither
delivered nor held, up to what was received, or to the writer's claim once the backstop is
due. It does not ask for all of them: what the lane has no slot for is left out, and while a
head is assembled what was asked before is not asked again before the backstop (`Askable`).
`emit_exact` says so of every lane a run leads to, and that a lane with something to ask for
asks for all of it.

`readerEmitChecked` is the emit over shifts that are undefined from the width on.
-/

namespace Rant.Transport

open Rant.Lib
open Rant.Lib.Window (On)

/-! ## What is held and what may be asked -/

/-- Seqno `q` is held in one of the two slots. -/
def Held (r : ReaderProxy) (q : Nat) : Prop := asmHeld r.cur q = true ∨ asmHeld r.next q = true

instance (r : ReaderProxy) (q : Nat) : Decidable (Held r q) := inferInstanceAs (Decidable (_ ∨ _))

/-- The end of what the lane can hold, 0 when no slot is taken: the head's, or the held
sample's when it follows the head directly or the head is still unknown. -/
def heldEnd (r : ReaderProxy) : Nat :=
  let headEnd := if r.cur.active then r.cur.base + r.cur.count else 0
  if r.next.active ∧ (r.cur.active = false ∨ r.next.base = headEnd)
  then r.next.base + r.next.count else headEnd

/-- A missing seqno the lane may ask for: in the window and within the bound, where it can be
held, and not in flight already. -/
structure Askable (r : ReaderProxy) (now q : Nat) : Prop where
  low : r.firstMissing ≤ q
  window : q < r.firstMissing + nackWindow
  bound : q ≤ nackBound r now
  missing : ¬ Held r q
  room : heldEnd r = 0 ∨ q < heldEnd r
  fresh : r.nackRetransmitUs ≤ now ∨ r.cur.active = false ∨ r.nackHigh ≤ q

/-- The top of the request bounds a seqno by the window, the bound and the room. -/
theorem lt_nackTop_iff (r : ReaderProxy) (firstMissing bound q : Nat) :
    q < nackTop r firstMissing bound ↔
      q < firstMissing + nackWindow ∧ q ≤ bound ∧ (heldEnd r = 0 ∨ q < heldEnd r) := by
  have htop : nackTop r firstMissing bound =
      if heldEnd r ≠ 0 ∧ heldEnd r < (if bound + 1 < firstMissing + nackWindow then bound + 1
        else firstMissing + nackWindow) then heldEnd r
      else if bound + 1 < firstMissing + nackWindow then bound + 1 else firstMissing + nackWindow := rfl
  rw [htop]
  split <;> split <;> omega

/-- The request starts at the floor, or at what was not asked yet. -/
theorem nackStart_le_iff (r : ReaderProxy) (firstMissing now q : Nat) :
    nackStart r firstMissing now ≤ q ↔
      firstMissing ≤ q ∧ (r.nackRetransmitUs ≤ now ∨ r.cur.active = false ∨ r.nackHigh ≤ q) := by
  unfold nackStart
  split
  next h =>
    refine ⟨fun hq => ⟨hq, ?_⟩, fun hq => hq.1⟩
    rcases h with h | h
    · exact Or.inl h
    · exact Or.inr (Or.inl h)
  next h =>
    rw [not_or] at h
    split
    next hlt =>
      refine ⟨fun hq => ⟨by omega, Or.inr (Or.inr hq)⟩, fun hq => ?_⟩
      rcases hq.2 with h' | h' | h'
      · exact absurd h' h.1
      · exact absurd h' h.2
      · exact h'
    next hge =>
      exact ⟨fun hq => ⟨hq, Or.inr (Or.inr (by omega))⟩, fun hq => hq.1⟩

/-- The request loop sets the bits of what is missing and no other. -/
theorem nackBitmap_on (r : ReaderProxy) (firstMissing askedHigh q : Nat) :
    ∀ (n s : Nat) (acc : BitVec 32 × Option Nat), firstMissing ≤ s → s + n ≤ firstMissing + 32 →
      (On firstMissing (nackBitmap r firstMissing askedHigh n s acc).1 q ↔
        On firstMissing acc.1 q ∨ (s ≤ q ∧ q < s + n ∧ ¬ Held r q))
  | 0, s, acc, _, _ => by
    unfold nackBitmap
    refine ⟨Or.inl, fun h => h.elim id fun h => ?_⟩
    omega
  | n + 1, s, acc, hs, hn => by
    have ih := fun acc' => nackBitmap_on r firstMissing askedHigh q n (s + 1) acc' (by omega) (by omega)
    unfold nackBitmap
    dsimp only
    rw [ih]
    by_cases hheld : asmHeld r.cur s = true ∨ asmHeld r.next s = true
    · rw [if_pos hheld]
      constructor
      · rintro (h | ⟨h1, h2, h3⟩)
        · exact Or.inl h
        · exact Or.inr ⟨by omega, by omega, h3⟩
      · rintro (h | ⟨h1, h2, h3⟩)
        · exact Or.inl h
        · have hne : s ≠ q := by
            rintro rfl
            exact h3 hheld
          exact Or.inr ⟨by omega, by omega, h3⟩
    · rw [if_neg hheld]
      rw [Window.on_or, Window.on_bit hs (by omega)]
      constructor
      · rintro ((h | rfl) | ⟨h1, h2, h3⟩)
        · exact Or.inl h
        · exact Or.inr ⟨Nat.le_refl _, by omega, hheld⟩
        · exact Or.inr ⟨by omega, by omega, h3⟩
      · rintro (h | ⟨h1, h2, h3⟩)
        · exact Or.inl (Or.inl h)
        · by_cases hq : q = s
          · exact Or.inl (Or.inr hq)
          · exact Or.inr ⟨by omega, by omega, h3⟩

/-- The bits of a repair are exactly what may be asked. -/
theorem nackRepair_on (t : Topic) (x : ReaderSide) (now q : Nat) :
    On x.r.firstMissing (nackRepair t x x.r.firstMissing now).2.2 q ↔ Askable x.r now q := by
  have hask : Askable x.r now q ↔ nackStart x.r x.r.firstMissing now ≤ q ∧
      q < nackTop x.r x.r.firstMissing (nackBound x.r now) ∧ ¬ Held x.r q := by
    rw [nackStart_le_iff, lt_nackTop_iff]
    constructor
    · exact fun h => ⟨⟨h.low, h.fresh⟩, ⟨h.window, h.bound, h.room⟩, h.missing⟩
    · exact fun h => ⟨h.1.1, h.2.1.1, h.2.1.2.1, h.2.2, h.2.1.2.2, h.1.2⟩
  rw [hask]
  unfold nackRepair
  split
  next =>
    obtain ⟨start, hstart⟩ : ∃ s, s = nackStart x.r x.r.firstMissing now := ⟨_, rfl⟩
    obtain ⟨top, htop⟩ : ∃ s, s = nackTop x.r x.r.firstMissing (nackBound x.r now) := ⟨_, rfl⟩
    have hlow : x.r.firstMissing ≤ start := by
      rw [hstart]
      exact ((nackStart_le_iff _ _ _ _).mp (Nat.le_refl _)).1
    have hhigh : top ≤ x.r.firstMissing + 32 := by
      by_contra hgt
      have hlt : x.r.firstMissing + 32 < top := Nat.not_le.mp hgt
      rw [htop] at hlt
      exact absurd ((lt_nackTop_iff _ _ _ _).mp hlt).1 (Nat.lt_irrefl _)
    rw [← hstart, ← htop]
    dsimp only
    have hbits : On x.r.firstMissing
        (nackBitmap x.r x.r.firstMissing x.r.nackHigh (top - start) start (0#32, none)).1 q ↔
        start ≤ q ∧ q < top ∧ ¬ Held x.r q := by
      by_cases hle : start ≤ top
      · rw [nackBitmap_on _ _ _ _ _ _ _ hlow (by omega)]
        constructor
        · rintro (h | ⟨h1, h2, h3⟩)
          · exact absurd h Window.not_on_zero
          · exact ⟨h1, by omega, h3⟩
        · rintro ⟨h1, h2, h3⟩
          exact Or.inr ⟨h1, by omega, h3⟩
      · have hz : top - start = 0 := by omega
        rw [hz]
        unfold nackBitmap
        refine ⟨fun h => absurd h Window.not_on_zero, fun h => ?_⟩
        omega
    rw [← hbits]
    split <;> rfl
  next hnone =>
    refine ⟨fun h => absurd h Window.not_on_zero, fun h => ?_⟩
    have h1 := (nackStart_le_iff _ _ _ _).mp h.1
    have h2 := (lt_nackTop_iff _ _ _ _).mp h.2.1
    omega

/-- The width of a request covers its bits and nothing past the window. -/
theorem nackRepair_nbits (t : Topic) (x : ReaderSide) (now : Nat) :
    (nackRepair t x x.r.firstMissing now).2.1 ≤ nackWindow ∧
      ((nackRepair t x x.r.firstMissing now).2.2 ≠ 0#32 →
        0 < (nackRepair t x x.r.firstMissing now).2.1) := by
  have hhigh : nackTop x.r x.r.firstMissing (nackBound x.r now) ≤ x.r.firstMissing + nackWindow := by
    by_contra hgt
    exact absurd ((lt_nackTop_iff _ _ _ _).mp (Nat.not_le.mp hgt)).1 (Nat.lt_irrefl _)
  constructor
  · unfold nackRepair
    split
    next =>
      dsimp only
      split
      next => exact Nat.zero_le _
      next =>
        show nackTop x.r x.r.firstMissing (nackBound x.r now) - x.r.firstMissing ≤ nackWindow
        omega
    next => exact Nat.zero_le _
  · intro hne
    obtain ⟨q, hq⟩ := Window.exists_on x.r.firstMissing hne
    have hask := (nackRepair_on t x now q).mp hq
    have hlt := (lt_nackTop_iff x.r x.r.firstMissing (nackBound x.r now) q).mpr
      ⟨hask.window, hask.bound, hask.room⟩
    have hlow := hask.low
    unfold nackRepair at hne ⊢
    split at hne
    next hle =>
      rw [if_pos hle]
      dsimp only at hne ⊢
      split at hne
      next hz => exact absurd hz hne
      next hz =>
        rw [if_neg hz]
        show 0 < nackTop x.r x.r.firstMissing (nackBound x.r now) - x.r.firstMissing
        omega
    next => exact absurd rfl hne

/-! ## The shifts -/

/-- A left shift of a `uint32_t`, undefined from 32 on. -/
def cShl (b : BitVec 32) (d : Nat) : Option (BitVec 32) := if d < 32 then some (b <<< d) else none

/-- `nackBitmap` over the checked shift. -/
def nackBitmapChecked (r : ReaderProxy) (firstMissing askedHigh : Nat) :
    Nat → Nat → BitVec 32 × Option Nat → Option (BitVec 32 × Option Nat)
  | 0, _, acc => some acc
  | n + 1, s, acc =>
    (if asmHeld r.cur s ∨ asmHeld r.next s then some acc
      else (cShl 1#32 (s - firstMissing)).map fun bit =>
        (acc.1 ||| bit, if acc.2 = none ∧ askedHigh ≤ s then some s else acc.2)).bind
      fun acc => nackBitmapChecked r firstMissing askedHigh n (s + 1) acc

/-- `nackAsked` over the checked shift: the test of the probe's bit. -/
def nackAskedChecked (t : Topic) (x : ReaderSide) (firstMissing top : Nat) (bitmap : BitVec 32)
    (probe : Option Nat) (now : Nat) : Option ReaderSide :=
  (if x.r.rttProbe ∧ ¬ x.r.rttProbeSeq < firstMissing ∧ x.r.rttProbeSeq < top
    then (cShr bitmap (x.r.rttProbeSeq - firstMissing)).map fun _ => () else some ()).map
    fun _ => nackAsked t x firstMissing top bitmap probe now

/-- `nackRepair` over the checked shifts. -/
def nackRepairChecked (t : Topic) (x : ReaderSide) (firstMissing : Nat) (now : Nat) :
    Option (ReaderSide × Nat × BitVec 32) :=
  if firstMissing ≤ nackBound x.r now then
    let top := nackTop x.r firstMissing (nackBound x.r now)
    let start := nackStart x.r firstMissing now
    (nackBitmapChecked x.r firstMissing x.r.nackHigh (top - start) start (0#32, none)).bind fun asked =>
      if asked.1 = 0#32 then some (keepLive x, 0, asked.1)
      else (nackAskedChecked t x firstMissing top asked.1 asked.2 now).map fun y =>
        (keepLive y, top - firstMissing, asked.1)
  else some ({ x with r := { x.r with nackHigh := firstMissing } }, 0, 0#32)

/-- `nackReply` over the checked shifts. -/
def nackReplyChecked (t : Topic) (x : ReaderSide) (force : Bool) (now : Nat) :
    Option (ReaderSide × Option NackMsg) :=
  (nackRepairChecked t x x.r.firstMissing now).map fun repair =>
    if repair.2.2 = 0#32 ∧ force = false then (repair.1, none)
    else (repair.1, some { base := x.r.firstMissing, nbits := repair.2.1, bitmap := repair.2.2
                           epoch := x.r.epoch, unpos := false })

/-- `i_rant_reader_emit` over the checked shifts. -/
def readerEmitChecked (t : Topic) (x : ReaderSide) (dormant : Bool) (cap now : Nat) :
    Option (ReaderSide × Option NackMsg) :=
  if x.r.used = false ∨ dormant ∨ ¬ t.reliable ∨ cap < headerNack then some (x, none)
  else if x.r.ackPending = false ∨ now < x.r.ackDueUs then some (x, none)
  else
    let force := x.r.ackForce
    let x := { x with r := { x.r with ackPending := false, ackForce := false, ackReq := false } }
    if x.r.parked then some (x, none)
    else if x.r.started = false then
      some (x, some { base := x.r.deliverUpto, nbits := 0, bitmap := 0#32, epoch := x.r.epoch
                      unpos := true })
    else nackReplyChecked t x force now

theorem nackBitmapChecked_eq (r : ReaderProxy) (firstMissing askedHigh : Nat) :
    ∀ (n s : Nat) (acc : BitVec 32 × Option Nat), s + n ≤ firstMissing + 32 →
      nackBitmapChecked r firstMissing askedHigh n s acc =
        some (nackBitmap r firstMissing askedHigh n s acc)
  | 0, _, _, _ => rfl
  | n + 1, s, acc, hn => by
    have hshift : cShl 1#32 (s - firstMissing) = some (1#32 <<< (s - firstMissing)) :=
      if_pos (by omega)
    unfold nackBitmapChecked nackBitmap
    dsimp only
    rw [hshift, Option.map_some]
    split
    next => exact nackBitmapChecked_eq r firstMissing askedHigh n (s + 1) _ (by omega)
    next => exact nackBitmapChecked_eq r firstMissing askedHigh n (s + 1) _ (by omega)

theorem nackAskedChecked_eq (t : Topic) (x : ReaderSide) {firstMissing top : Nat} (bitmap : BitVec 32)
    (probe : Option Nat) (now : Nat) (htop : top ≤ firstMissing + 32) :
    nackAskedChecked t x firstMissing top bitmap probe now =
      some (nackAsked t x firstMissing top bitmap probe now) := by
  unfold nackAskedChecked
  split
  next h =>
    have hshift : cShr bitmap (x.r.rttProbeSeq - firstMissing) =
        some (bitmap >>> (x.r.rttProbeSeq - firstMissing)) := if_pos (by omega)
    rw [hshift]
    rfl
  next => rfl

/-- No shift of the emit is undefined. -/
theorem readerEmitChecked_eq (t : Topic) (x : ReaderSide) (dormant : Bool) (cap now : Nat) :
    readerEmitChecked t x dormant cap now = some (readerEmit t x dormant cap now) := by
  have hrepair : ∀ (y : ReaderSide) (firstMissing : Nat),
      nackRepairChecked t y firstMissing now = some (nackRepair t y firstMissing now) := by
    intro y firstMissing
    have hhigh : nackTop y.r firstMissing (nackBound y.r now) ≤ firstMissing + 32 := by
      by_contra hgt
      exact absurd ((lt_nackTop_iff _ _ _ _).mp (Nat.not_le.mp hgt)).1 (Nat.lt_irrefl _)
    unfold nackRepairChecked nackRepair
    split
    next =>
      dsimp only
      rcases Nat.le_total (nackStart y.r firstMissing now)
        (nackTop y.r firstMissing (nackBound y.r now)) with hle | hle
      · rw [nackBitmapChecked_eq _ _ _ _ _ _ (by omega), Option.bind_some]
        rw [nackAskedChecked_eq t y _ _ now hhigh, Option.map_some]
        split <;> rfl
      · rw [Nat.sub_eq_zero_of_le hle]
        rfl
    next => rfl
  unfold readerEmitChecked readerEmit
  dsimp only
  split
  next => rfl
  split
  next => rfl
  split
  next => rfl
  split
  next => rfl
  next =>
    unfold nackReplyChecked nackReply
    rw [hrepair, Option.map_some]

/-! ## The ACKNACK of a lane -/

/-- A poll that finds the lane's ack due: matched, reliable and awake, with room for an
ACKNACK, positioned and not parked. -/
structure Polled (t : Topic) (r : ReaderProxy) (dormant : Bool) (cap now : Nat) : Prop where
  used : r.used = true
  awake : dormant = false
  reliable : t.reliable
  room : headerNack ≤ cap
  pending : r.ackPending = true
  due : r.ackDueUs ≤ now
  running : r.parked = false
  started : r.started = true

/-- What an ACKNACK says of the lane it was emitted for. -/
structure RequestExact (r : ReaderProxy) (now : Nat) (m : NackMsg) : Prop where
  base : m.base = r.firstMissing
  below : ∀ q, q < m.base → q < r.deliverUpto ∨ asmHeld r.cur q = true
  front : asmHeld r.cur m.base = false
  width : m.nbits ≤ nackWindow
  asks : ∀ q, Requested m q → r.deliverUpto ≤ q ∧ ¬ Held r q ∧ q ≤ nackBound r now

/-- What the emit does on a lane: every ACKNACK is exact and no shift is undefined, and a lane
whose head is not complete asks for all it may ask for. At the backstop, or while no head is
assembled, that is something as soon as the front lies within the bound. -/
structure EmitExact (t : Topic) (x : ReaderSide) (dormant : Bool) (cap now : Nat) : Prop where
  exact : ∀ m, (readerEmit t x dormant cap now).2 = some m → RequestExact x.r now m
  shifts : readerEmitChecked t x dormant cap now = some (readerEmit t x dormant cap now)
  all : Polled t x.r dormant cap now → (x.r.cur.active = true → x.r.cur.low < x.r.cur.count) →
    ∀ q, Askable x.r now q → ∃ m, (readerEmit t x dormant cap now).2 = some m ∧ Requested m q
  some : Polled t x.r dormant cap now → (x.r.cur.active = true → x.r.cur.low < x.r.cur.count) →
    HeldPast x.r → (x.r.nackRetransmitUs ≤ now ∨ x.r.cur.active = false) →
    x.r.firstMissing ≤ nackBound x.r now →
    ∃ m, (readerEmit t x dormant cap now).2 = some m ∧ Requested m m.base

variable {t : Topic}

/-- The lane whose ack flags the emit has cleared. -/
def unarmed (x : ReaderSide) : ReaderSide :=
  { x with r := { x.r with ackPending := false, ackForce := false, ackReq := false } }

theorem askable_unarmed (x : ReaderSide) (now q : Nat) :
    Askable (unarmed x).r now q ↔ Askable x.r now q :=
  ⟨fun h => ⟨h.low, h.window, h.bound, h.missing, h.room, h.fresh⟩,
    fun h => ⟨h.low, h.window, h.bound, h.missing, h.room, h.fresh⟩⟩

/-- The two ways an ACKNACK comes out of the emit. -/
theorem readerEmit_cases {x : ReaderSide} {dormant : Bool} {cap now : Nat} {m : NackMsg}
    (h : (readerEmit t x dormant cap now).2 = some m) : x.r.used = true ∧
      ((x.r.started = false ∧ m.base = x.r.deliverUpto ∧ m.nbits = 0) ∨
        (m.base = x.r.firstMissing ∧
          m.nbits = (nackRepair t (unarmed x) x.r.firstMissing now).2.1 ∧
          m.bitmap = (nackRepair t (unarmed x) x.r.firstMissing now).2.2)) := by
  unfold readerEmit at h
  split at h
  next => exact absurd h (Option.some_ne_none m).symm
  next hu =>
    refine ⟨Bool.not_eq_false _ ▸ fun hc => hu (Or.inl hc), ?_⟩
    split at h
    next => exact absurd h (Option.some_ne_none m).symm
    dsimp only at h
    split at h
    next => exact absurd h (Option.some_ne_none m).symm
    split at h
    next hst =>
      have hm := Option.some.inj h
      rw [← hm]
      exact Or.inl ⟨hst, rfl, rfl⟩
    next =>
      unfold nackReply at h
      dsimp only at h
      split at h
      next => exact absurd h (Option.some_ne_none m).symm
      have hm := Option.some.inj h
      rw [← hm]
      exact Or.inr ⟨rfl, rfl, rfl⟩

/-- The front of a positioned lane: below it everything is delivered or held, and it is not. -/
theorem firstMissing_front {r : ReaderProxy} (h : Slots t Front r) :
    r.deliverUpto ≤ r.firstMissing ∧
      (∀ q, q < r.firstMissing → q < r.deliverUpto ∨ asmHeld r.cur q = true) ∧
      asmHeld r.cur r.firstMissing = false := by
  unfold ReaderProxy.firstMissing asmHeld
  by_cases ha : r.cur.active = true
  · have hb := h.head ha
    have hf := h.cur_ok ha
    have hle := hf.low_le
    rw [if_pos ha]
    refine ⟨Nat.le_add_right _ _, fun q hq => ?_, ?_⟩
    · by_cases hq' : q < r.deliverUpto
      · exact Or.inl hq'
      · refine Or.inr (decide_eq_true ⟨ha, by omega, by omega, hf.held _ (by omega)⟩)
    · refine decide_eq_false fun hc => ?_
      have hlt : r.cur.low < r.cur.count := by omega
      have hbit := hf.stops hlt
      have hsub : r.deliverUpto + r.cur.low - r.cur.base = r.cur.low := by omega
      rw [hsub, hbit] at hc
      exact Bool.noConfusion hc.2.2.2
  · rw [if_neg ha]
    exact ⟨Nat.le_refl _, fun q hq => Or.inl hq, decide_eq_false fun hc => ha hc.1⟩

/-- A polled lane with something to ask for emits the request. -/
theorem readerEmit_asks {x : ReaderSide} {dormant : Bool} {cap now q : Nat}
    (hp : Polled t x.r dormant cap now) (hq : Askable x.r now q) :
    ∃ m, (readerEmit t x dormant cap now).2 = some m ∧ m.base = x.r.firstMissing ∧ Requested m q := by
  have hon := (nackRepair_on t (unarmed x) now q).mpr ((askable_unarmed x now q).mpr hq)
  have hne := hon.ne_zero
  have hpos := (nackRepair_nbits t (unarmed x) now).2 hne
  have hemit : readerEmit t x dormant cap now = nackReply t (unarmed x) x.r.ackForce now := by
    unfold readerEmit
    rw [if_neg, if_neg]
    · dsimp only
      rw [if_neg fun hc => Bool.noConfusion (hp.running.symm.trans hc),
        if_neg fun hc => Bool.noConfusion (hp.started.symm.trans hc)]
      rfl
    · rintro (hc | hc)
      · exact Bool.noConfusion (hc.symm.trans hp.pending)
      · exact absurd hp.due (Nat.not_le.mpr hc)
    · rintro (hc | hc | hc | hc)
      · exact Bool.noConfusion (hc.symm.trans hp.used)
      · exact Bool.noConfusion (hp.awake.symm.trans hc)
      · exact hc hp.reliable
      · exact absurd hp.room (Nat.not_le.mpr hc)
  have hreply : (nackReply t (unarmed x) x.r.ackForce now).2 =
      some { base := x.r.firstMissing
             nbits := (nackRepair t (unarmed x) (unarmed x).r.firstMissing now).2.1
             bitmap := (nackRepair t (unarmed x) (unarmed x).r.firstMissing now).2.2
             epoch := x.r.epoch, unpos := false } := by
    unfold nackReply
    dsimp only
    rw [if_neg fun hc => hne hc.1]
    rfl
  rw [hemit, hreply]
  exact ⟨_, rfl, rfl, hpos, hon⟩

/-- The front itself is missing, and the lane can hold it. -/
theorem askable_front {r : ReaderProxy} {now : Nat} (h : Slots t Front r)
    (hhead : r.cur.active = true → r.cur.low < r.cur.count) (hpast : HeldPast r)
    (hfresh : r.nackRetransmitUs ≤ now ∨ r.cur.active = false) (hbound : r.firstMissing ≤ nackBound r now) :
    Askable r now r.firstMissing := by
  obtain ⟨hup, -, hfront⟩ := firstMissing_front h
  have hfm : r.firstMissing = if r.cur.active then r.deliverUpto + r.cur.low else r.deliverUpto := rfl
  -- the sample held ahead starts past the front
  have hnext : r.next.active = true → r.firstMissing < r.next.base := by
    intro hn
    have hahead := h.ahead hn
    by_cases ha : r.cur.active = true
    · have hp := hpast ha hn
      have hlt := hhead ha
      have hb := h.head ha
      rw [hfm, if_pos ha]
      omega
    · rw [hfm, if_neg ha]
      exact hahead
  refine ⟨Nat.le_refl _, Nat.lt_add_of_pos_right (by decide), hbound, ?_, ?_, ?_⟩
  · rintro (hc | hc)
    · exact Bool.noConfusion (hfront.symm.trans hc)
    · have hin := of_decide_eq_true hc
      exact absurd (hnext hin.1) (Nat.not_lt.mpr hin.2.1)
  · unfold heldEnd
    dsimp only
    by_cases ha : r.cur.active = true
    · have hlt := hhead ha
      have hb := h.head ha
      have hin : r.firstMissing < r.cur.base + r.cur.count := by
        rw [hfm, if_pos ha]
        omega
      rw [if_pos ha]
      split
      next hn =>
        have := hnext hn.1
        omega
      next => exact Or.inr hin
    · rw [if_neg ha]
      split
      next hn =>
        have := hnext hn.1
        omega
      next => exact Or.inl rfl
  · exact hfresh.imp_right Or.inl

/-- Every emit of every lane a run leads to is exact. -/
theorem emit_exact (t : Topic) (es : List ReaderEvent) (dormant : Bool) (cap now : Nat) :
    EmitExact t (readerRun t es).side dormant cap now := by
  obtain ⟨x, hx⟩ : ∃ x, x = (readerRun t es).side := ⟨_, rfl⟩
  have hslots : x.r.used = true → Slots t Front x.r := by
    rw [hx]
    exact readerRun_slots front_fitStable (fun l e _ => front_puts l e) (fun hu => Bool.noConfusion hu)
  rw [← hx]
  refine ⟨fun m hm => ?_, readerEmitChecked_eq t x dormant cap now, fun hp _ q hq => ?_, ?_⟩
  · obtain ⟨hu, hcase⟩ := readerEmit_cases hm
    have hs := hslots hu
    obtain ⟨hup, hbelow, hfront⟩ := firstMissing_front hs
    rcases hcase with ⟨hst, hbase, hbits⟩ | ⟨hbase, hbits, hmap⟩
    · -- no position yet: the epoch is announced and nothing asked
      have hfm : x.r.firstMissing = x.r.deliverUpto := by
        unfold ReaderProxy.firstMissing
        rw [(hs.idle hst).1, if_neg Bool.false_ne_true]
      have hb := hbase.trans hfm.symm
      refine ⟨hb, hb ▸ hbelow, hb ▸ hfront, by rw [hbits]; exact Nat.zero_le _, ?_⟩
      intro q hq
      have hpos := hq.1
      rw [hbits] at hpos
      exact absurd hpos (Nat.lt_irrefl 0)
    · refine ⟨hbase, hbase ▸ hbelow, hbase ▸ hfront, ?_, fun q hq => ?_⟩
      · rw [hbits]
        exact (nackRepair_nbits t (unarmed x) now).1
      · have hon := hq.2
        rw [hbase, hmap] at hon
        have hask := (askable_unarmed x now q).mp ((nackRepair_on t (unarmed x) now q).mp hon)
        exact ⟨Nat.le_trans hup hask.low, hask.missing, hask.bound⟩
  · obtain ⟨m, hm, -, hreq⟩ := readerEmit_asks hp hq
    exact ⟨m, hm, hreq⟩
  · intro hp hhead hpast hfresh hbound
    obtain ⟨m, hm, hbase, hreq⟩ := readerEmit_asks hp
      (askable_front (hslots hp.used) hhead hpast hfresh hbound)
    exact ⟨m, hm, hbase.symm ▸ hreq⟩

/-- A heartbeat right after a request: the second ACKNACK asks for nothing, though the
fragment missing from the head lies in its window below what was received. -/
theorem emit_silent_in_flight : ∃ (es : List ReaderEvent) (m : NackMsg) (q : Nat),
    (readerEmit heardTopic (readerRun heardTopic es).side false 1390 20).2 = some m ∧
    (readerRun heardTopic es).side.r.started = true ∧
    m.base ≤ q ∧ q < m.base + nackWindow ∧ q ≤ nackBound (readerRun heardTopic es).side.r 20 ∧
    (readerRun heardTopic es).side.r.deliverUpto ≤ q ∧ ¬ Held (readerRun heardTopic es).side.r q ∧
    ∀ p, ¬ Requested m p := by
  refine ⟨[.matched 1, .setFrag 1350, someData 0 0 1 2 2 7, someData 1 0 3 12 4 7,
    someData 3 2 3 12 4 7, .poll false 1390 10, .hb {} { first := 0, last := 3, count := 0 } 15],
    { base := 2, nbits := 0, bitmap := 0#32, epoch := 1, unpos := false }, 2, ?_⟩
  refine ⟨by decide, by decide, by decide, by decide, by decide, by decide, by decide, ?_⟩
  intro p hp
  exact absurd hp.1 (Nat.lt_irrefl 0)

end Rant.Transport
