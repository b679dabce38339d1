import Rant.Transport.ReaderInv
/-!
# What one arrival does to a reader lane

Each entry of the reader path (a DATA fragment, an SHM descriptor, a heartbeat, a
resume) keeps the invariant and books every seqno it passes. For a lane that has
a position this is `Kept`. A lane without one adopts the position of the first
DATA it accepts: `Arrived` says which of the two happened, and that the ledger of
an adopting step starts at the arrival's own base.
-/

namespace Rant.Transport

open Rant.Lib
open Rant.Lib.Fragment (Agrees fragment writeAt)

variable {F : Nat} {L : List Committed} {t : Topic} {sink : Sink}

/-! ## Arrivals -/

/-- The outcome of an arrival at `base`: nothing but acks; or a lane with a position
moved on from it; or a lane without one took `base` for its position and moved on. -/
structure Arrived (F : Nat) (L : List Committed) (x x' : ReaderSide) (base : Nat) : Prop where
  inv : RInv F L x'.r
  used : x'.r.used = x.r.used
  positioned : x.r.used = true → x'.r.started = true
  booked : Quiet x x' ∨
    (x.r.started = true ∧ x'.r.started = true ∧ Moves L x x') ∨
    (x.r.used = true ∧ x.r.started = false ∧ x'.r.started = true ∧
      ∃ y : ReaderSide, y.fx = x.fx ∧ y.r.deliverUpto = base ∧ Moves L y x')

variable {x : ReaderSide} {base : Nat}

theorem arrived_of_quiet {x' : ReaderSide} (h : RInv F L x.r)
    (hst : x.r.used = true → x.r.started = true) (hq : Quiet x x') : Arrived F L x x' base :=
  ⟨h.congr hq.1, hq.1.used, fun hu => hq.1.started.trans (hst hu), Or.inl hq⟩

/-- A lane that stands at `base`, where the arrival's sample starts. -/
structure Positioned (F : Nat) (L : List Committed) (x x' : ReaderSide) (base : Nat) : Prop where
  inv : RInv F L { x'.r with started := true }
  upto : x'.r.deliverUpto = base
  stays : x.r.started = true → x.r.deliverUpto = base
  fx : x'.fx = x.fx
  parked : x'.r.parked = x.r.parked
  started : x'.r.started = x.r.started
  used : x'.r.used = x.r.used

/-- What follows from a position is the arrival's outcome. -/
theorem Positioned.arrived {x' z : ReaderSide} (h : Positioned F L x x' base)
    (hu : x.r.used = true) (hk : Kept F L { x' with r := { x'.r with started := true } } z) : Arrived F L x z base := by
  refine ⟨hk.inv, hk.used.trans h.used, fun _ => hk.started, Or.inr ?_⟩
  by_cases hst : x.r.started = true
  · refine Or.inl ⟨hst, hk.started, ?_⟩
    obtain ⟨es, hfx, hgen, htiles⟩ := hk.moves
    refine ⟨es, hfx.trans (by rw [← h.fx]), hgen, ?_⟩
    rw [h.stays hst, ← h.upto]
    exact htiles
  · rw [Bool.not_eq_true] at hst
    exact Or.inr ⟨hu, hst, hk.started, _, h.fx, h.upto, hk.moves⟩

/-- What `i_rant_reader_order_arrival` answers on a reliable topic: an old or future
arrival only arms acks, any other leaves the lane standing at it. -/
theorem readerOrder_cases (base top : Nat) (ackReq : Bool)
    (ht : t.reliable) (h : RInv F L x.r) :
    (∃ x', readerOrderArrival t (noteAckReq t x ackReq) base top = (x', .old) ∧ Quiet x x' ∧
      x.r.started = true) ∨
    (∃ x', readerOrderArrival t (noteAckReq t x ackReq) base top = (x', .gap) ∧ Quiet x x' ∧
      x.r.started = true ∧ x.r.deliverUpto < base) ∨
    (∃ x' o, readerOrderArrival t (noteAckReq t x ackReq) base top = (x', o) ∧
      (o = .adopted ∧ x.r.parked = false ∨ o = .inorder) ∧ Positioned F L x x' base) := by
  have hq := noteAckReq_quiet t x ackReq
  have hn := h.congr hq.1
  have hfx : (noteAckReq t x ackReq).fx = x.fx := by
    unfold noteAckReq
    split <;> rfl
  unfold readerOrderArrival
  by_cases hold : base < (noteAckReq t x ackReq).r.deliverUpto
  · rw [if_pos hold]
    refine Or.inl ⟨_, rfl, hq, ?_⟩
    rw [← hq.1.started]
    exact hn.started_of_pos (Nat.zero_lt_of_lt hold)
  rw [if_neg hold]
  dsimp only
  by_cases hgt : (noteAckReq t x ackReq).r.deliverUpto < base
  · rw [if_pos hgt]
    by_cases hst : (noteAckReq t x ackReq).r.started = true
    · -- a future sample on a lane with a position
      rw [if_pos ⟨ht, hst⟩]
      refine Or.inr (Or.inl ⟨_, rfl, quiet_trans hq (quiet_trans ?_ (armGap_quiet _)), ?_, ?_⟩)
      · exact quiet_of_fx_eq ⟨rfl, rfl, rfl, rfl, rfl, rfl, rfl⟩ rfl
      · rw [← hq.1.started]
        exact hst
      · rw [← hq.1.deliverUpto]
        exact hgt
    · -- adopted: the lane had no position and holds nothing
      rw [if_neg fun hc => hst hc.2, if_neg fun hc => hst hc.1]
      rw [Bool.not_eq_true] at hst
      have hidle := hn.idle hst
      have hps := hn.not_held hidle.2.2.1
      refine Or.inr (Or.inr ⟨_, _, rfl, Or.inl ⟨rfl, ?_⟩, ?_⟩)
      · rw [← hq.1.parked]
        exact hidle.2.2.1
      · refine ⟨⟨asmOk_inactive hidle.1, asmOk_inactive hidle.2.1, ?_, ?_, ?_, ?_⟩, rfl, ?_, hfx,
          hq.1.parked, hq.1.started, hq.1.used⟩
        · exact fun ha => Bool.noConfusion (hidle.1.symm.trans ha)
        · exact fun ha => Bool.noConfusion (hidle.2.1.symm.trans ha)
        · exact fun hs => Bool.noConfusion hs
        · exact fun hs => Bool.noConfusion (hps.symm.trans hs)
        · intro hc
          exact Bool.noConfusion ((hq.1.started.symm.trans hst).symm.trans hc)
  · rw [if_neg hgt]
    refine Or.inr (Or.inr ⟨_, _, rfl, Or.inr rfl, ?_⟩)
    refine ⟨⟨hn.cur_ok, hn.next_ok, hn.cur_base, hn.next_base, ?_, hn.held⟩, ?_, ?_, hfx,
      hq.1.parked, hq.1.started, hq.1.used⟩
    · exact fun hs => Bool.noConfusion hs
    · show (noteAckReq t x ackReq).r.deliverUpto = base
      omega
    · intro _
      rw [← hq.1.deliverUpto]
      omega

/-! ## Shared memory descriptors -/

/-- A descriptor that was not delivered: retried, or given up with a report. -/
theorem shmFailed_kept {count : Nat} (ht : t.reliable)
    (h : RInv F L x.r) (hst : x.r.started = true) (hp : x.r.parked = false)
    (hcur : x.r.cur.active = false) (hbase : base = x.r.deliverUpto) (hcount : 0 < count) :
    Kept F L x (shmFailed t x base count) := by
  have hfail : Quiet x { x with r := { x.r with shmFail := x.r.shmFail + 1 } } :=
    quiet_of_fx_eq ⟨rfl, rfl, rfl, rfl, rfl, rfl, rfl⟩ rfl
  unfold shmFailed
  rw [if_pos ht]
  dsimp only
  split
  next =>
    refine Kept.quiet (y := { x with
      stats := { x.stats with msgsSkipped := x.stats.msgsSkipped + count }
      r := readerSettle { x.r with shmFail := 0, deliverUpto := base + count }
      fx := x.fx ++ [.lost base count] }) ⟨?_, ?_, ?_, ?_⟩ (readerAckNow_quiet _ true false)
    · exact readerSettle_inv hcur h.next_ok hst (h.not_held hp)
    · exact moves_span (e := .lost base count) (s := ⟨base, count⟩) rfl trivial rfl hbase hcount
        (readerSettle_deliverUpto _)
    · exact readerSettle_started _
    · exact readerSettle_used _
  next => exact kept_of_quiet h (quiet_trans hfail (readerAckNow_quiet _ false false))

variable {al : Alloc} {now : Nat}

/-- `shm_resolve`: the descriptor is delivered, parked, retried or given up. -/
theorem shmResolve_kept {m : ShmMsg} (hF : 0 < F) (hL : LogOk F L)
    (ht : t.reliable) (hm : ShmOk L m) (h : RInv F L x.r) (hst : x.r.started = true)
    (hp : x.r.parked = false) (hcur : x.r.cur.active = false) (hbase : m.base = x.r.deliverUpto) :
    Kept F L x (shmResolve t sink al x m now) := by
  obtain ⟨c, hc, hcb, hcc, hcd⟩ := hm.sample
  have hcount : 0 < m.count := by
    rw [hcc]
    exact hL.count_pos c hc
  have hgen : ∀ ok, Genuine L (.shm m.base m.count m.desc ok) :=
    fun _ => ⟨c, hc, hcb.symm, hcc.symm, hcd⟩
  have hs := h.not_held hp
  unfold shmResolve
  dsimp only
  by_cases hok : 0 < sink.onShm x.fx m.desc
  · -- delivered, then what was held ahead
    rw [if_pos hok, if_pos ht]
    have hdel : Kept F L x { x with
        r := readerSettle { x.r with shmFail := 0, lapped := false, deliverUpto := m.base + m.count }
        fx := x.fx ++ [.shm m.base m.count m.desc (sink.onShm x.fx m.desc)] } := by
      refine ⟨readerSettle_inv hcur h.next_ok hst hs, ?_, readerSettle_started _,
        readerSettle_used _⟩
      refine moves_span (s := ⟨m.base, m.count⟩) rfl (hgen _) ?_ hbase hcount
        (readerSettle_deliverUpto _)
      unfold Effect.span
      exact if_pos hok
    have hack := hdel.quiet (readerAckDelivered_quiet _ now)
    refine kept_trans hack (readerDeliver_kept hF hL ht hack.inv ?_ ?_)
    · rw [hack.started]
      exact hst
    · have hq := readerAckDelivered_quiet { x with
        r := readerSettle { x.r with shmFail := 0, lapped := false, deliverUpto := m.base + m.count }
        fx := x.fx ++ [.shm m.base m.count m.desc (sink.onShm x.fx m.desc)] } now
      refine hq.1.parked.trans ?_
      rw [← hp]
      exact readerSettle_parked _
  · rw [if_neg hok]
    have hspan : Effect.span (.shm m.base m.count m.desc (sink.onShm x.fx m.desc)) = none := by
      unfold Effect.span
      exact if_neg hok
    have hcall : Kept F L x (x.emit (.shm m.base m.count m.desc (sink.onShm x.fx m.desc))) :=
      ⟨h.congr (sameCore_refl _), moves_refused rfl (hgen _) hspan rfl, rfl, rfl⟩
    by_cases hneg : sink.onShm x.fx m.desc < 0
    · -- refused: parked as a descriptor, or an allocation failure takes the repair path
      rw [if_pos hneg, if_neg (not_not_intro ht)]
      have hspec := asmFit_spec al x.r.cur shmDescBytes 1
      split
      next a hfit =>
        rw [show asmFit al x.r.cur shmDescBytes 1 = (a, true) from hfit] at hspec
        have hroom := (hspec.2.2 rfl).1
        have hdesc : m.desc.length = shmDescBytes := hL.desc_len c hc m.desc hcd
        refine ⟨⟨asmOk_inactive (hspec.1.trans hcur), h.next_ok, ?_, h.next_base, ?_, ?_⟩, ?_, rfl, rfl⟩
        · intro ha
          exact Bool.noConfusion ((hspec.1.trans hcur).symm.trans ha)
        · intro hs'
          exact Bool.noConfusion (hst.symm.trans hs')
        · intro _
          refine ⟨rfl, hspec.1.trans hcur, hbase, c, hc, hcb.symm, hcc.symm, ?_⟩
          rw [hcd, ← hdesc]
          exact congrArg some Fragment.take_writeAt_zero.symm
        · exact moves_refused rfl (hgen _) hspan rfl
      next a hfit =>
        rw [show asmFit al x.r.cur shmDescBytes 1 = (a, false) from hfit] at hspec
        have hcall' : Kept F L x { x.emit (.shm m.base m.count m.desc (sink.onShm x.fx m.desc)) with
            r := { x.r with cur := a } } := by
          refine ⟨⟨asmOk_inactive (hspec.1.trans hcur), h.next_ok, ?_, h.next_base, ?_, ?_⟩,
            moves_refused rfl (hgen _) hspan rfl, rfl, rfl⟩
          · intro ha
            exact Bool.noConfusion ((hspec.1.trans hcur).symm.trans ha)
          · intro hs'
            exact Bool.noConfusion (hst.symm.trans hs')
          · intro hs'
            exact Bool.noConfusion (hs.symm.trans hs')
        exact kept_trans hcall' (shmFailed_kept ht hcall'.inv hst hp (hspec.1.trans hcur) hbase hcount)
    · rw [if_neg hneg]
      exact kept_trans hcall (shmFailed_kept ht hcall.inv hst hp hcur hbase hcount)

/-- An SHM-DATA submessage of a committed chunk. -/
theorem readerShm_arrived {m : ShmMsg} (hF : 0 < F) (hL : LogOk F L)
    (ht : t.reliable) (hm : ShmOk L m) (h : RInv F L x.r) :
    Arrived F L x (readerShm t sink al x m now) m.base := by
  unfold readerShm
  split
  next hu =>
    refine arrived_of_quiet h (fun hu' => ?_) (quiet_refl x)
    obtain ⟨c, hc, -, hcount, -⟩ := hm.sample
    have hpos := hL.count_pos c hc
    rcases hu with hu | hzero
    · exact Bool.noConfusion (hu.symm.trans hu')
    · omega
  next hu =>
    have hu : x.r.used = true := by
      rw [← Bool.not_eq_false]
      exact fun hc => hu (Or.inl hc)
    have hq := noteAckReq_quiet t x m.ackReq
    have hn := h.congr hq.1
    dsimp only
    split
    next hp =>
      exact arrived_of_quiet h (fun _ => h.started_of_parked (hq.1.parked.symm.trans hp))
        (quiet_trans hq (quiet_stat _ _))
    next hp =>
      rw [Bool.not_eq_true] at hp
      rcases readerOrder_cases m.base (m.base + m.count - 1) m.ackReq ht h with
        ⟨x', heq, hq', hst⟩ | ⟨x', heq, hq', hst, _⟩ | ⟨x', o, heq, ho, hpos⟩
      · rw [heq]
        exact arrived_of_quiet h (fun _ => hst) (quiet_trans hq' (ackOld_quiet _))
      · rw [heq]
        exact arrived_of_quiet h (fun _ => hst) hq'
      · rw [heq]
        have hp' : x'.r.parked = false := by
          rw [hpos.parked, ← hq.1.parked]
          exact hp
        -- the head is free from here on: a partial inline assembly is dropped
        have hfree : Kept F L { x' with r := { x'.r with started := true } }
            { x' with r := { x'.r with started := true, cur := { x'.r.cur with active := false } } } := by
          refine ⟨⟨asmOk_inactive rfl, hpos.inv.next_ok, fun ha => Bool.noConfusion ha,
            hpos.inv.next_base, fun hs => Bool.noConfusion hs, fun hs => ?_⟩,
            ⟨[], (List.append_nil _).symm, fun _ hf => absurd hf List.not_mem_nil, rfl⟩, rfl, rfl⟩
          exact Bool.noConfusion ((hpos.inv.not_held hp').symm.trans hs)
        have hbody : Kept F L { x' with r := { x'.r with started := true } }
            (shmResolve t sink al
              (if x'.r.rttProbe ∧ m.base ≤ x'.r.rttProbeSeq ∧ x'.r.rttProbeSeq < m.base + m.count
                then endProbe { x' with r := { x'.r with
                  started := true, cur := { x'.r.cur with active := false } } } now
                else { x' with r := { x'.r with
                  started := true, cur := { x'.r.cur with active := false } } }) m now) := by
          split
          next =>
            have hend := hfree.quiet (endProbe_quiet _ now)
            exact kept_trans hend
              (shmResolve_kept hF hL ht hm hend.inv rfl hp' rfl hpos.upto.symm)
          next =>
            exact kept_trans hfree
              (shmResolve_kept hF hL ht hm hfree.inv rfl hp' rfl hpos.upto.symm)
        rcases ho with ⟨rfl, _⟩ | rfl
        · exact hpos.arrived hu hbody
        · exact hpos.arrived hu hbody

/-! ## DATA fragments -/

variable {m : DataMsg}

/-- The base a reader computes from a committed sample's fragment is the sample's. -/
theorem DataOk.base_eq {c : Committed} (h : m.seqno = c.base + m.frag) :
    m.base = c.base := by
  unfold DataMsg.base u64Sub
  rw [if_pos (by omega)]
  omega

/-- A fragment of a committed sample passes the reader's checks. -/
theorem DataOk.wellFormed (h : DataOk F L m) (hL : LogOk F L) :
    ¬ (m.count = 0 ∨ m.count ≤ m.frag ∨ m.count * F < m.sampleLen) := by
  obtain ⟨c, hc, -, hfrag, hcount, hlen, -, -⟩ := h.sample
  have hfits := hL.fits c hc
  rw [← hcount, ← hlen] at hfits
  omega

/-- Where a fragment's sample may go: the head when it starts at `deliver_upto` on a
lane that is not parked, the ahead slot when it lies past it. -/
def Slot.At (r : ReaderProxy) (base : Nat) : Slot → Prop
  | .cur => r.deliverUpto = base ∧ r.parked = false
  | .next => r.deliverUpto < base

variable {s : Slot}

/-- A slot that assembles a committed sample at its place keeps the lane's invariant. -/
theorem RInv.setSlot {r : ReaderProxy} {a : Assembly} (h : RInv F L r)
    (hst : r.started = true) (ha : AsmOk F L a) (hat : s.At r a.base) :
    RInv F L (r.setSlot s a) := by
  cases s with
  | cur =>
    refine ⟨ha, h.next_ok, fun _ => hat.1.symm, h.next_base, fun hs => ?_, fun hs => ?_⟩
    · exact Bool.noConfusion (hst.symm.trans hs)
    · exact Bool.noConfusion ((h.not_held hat.2).symm.trans hs)
  | next =>
    refine ⟨h.cur_ok, ha, h.cur_base, fun _ => hat, fun hs => ?_, h.held⟩
    exact Bool.noConfusion (hst.symm.trans hs)

/-- An emptied slot keeps the invariant wherever it is. -/
theorem RInv.clearSlot {r : ReaderProxy} {a : Assembly} (h : RInv F L r)
    (hst : r.started = true) (ha : a.active = false) (hp : s = .cur → r.parked = false) :
    RInv F L (r.setSlot s a) := by
  cases s with
  | cur =>
    refine ⟨asmOk_inactive ha, h.next_ok, fun hact => ?_, h.next_base, fun hs => ?_, fun hs => ?_⟩
    · exact Bool.noConfusion (ha.symm.trans hact)
    · exact Bool.noConfusion (hst.symm.trans hs)
    · exact Bool.noConfusion ((h.not_held (hp rfl)).symm.trans hs)
  | next =>
    refine ⟨h.cur_ok, asmOk_inactive ha, h.cur_base, fun hact => ?_, fun hs => ?_, h.held⟩
    · exact Bool.noConfusion (ha.symm.trans hact)
    · exact Bool.noConfusion (hst.symm.trans hs)

@[simp] theorem slot_setSlot (r : ReaderProxy) (s : Slot) (a : Assembly) :
    (r.setSlot s a).slot s = a := by cases s <;> rfl

@[simp] theorem setSlot_deliverUpto (r : ReaderProxy) (s : Slot) (a : Assembly) :
    (r.setSlot s a).deliverUpto = r.deliverUpto := by cases s <;> rfl

@[simp] theorem setSlot_started (r : ReaderProxy) (s : Slot) (a : Assembly) :
    (r.setSlot s a).started = r.started := by cases s <;> rfl

@[simp] theorem setSlot_used (r : ReaderProxy) (s : Slot) (a : Assembly) :
    (r.setSlot s a).used = r.used := by cases s <;> rfl

@[simp] theorem setSlot_parked (r : ReaderProxy) (s : Slot) (a : Assembly) :
    (r.setSlot s a).parked = r.parked := by cases s <;> rfl

/-- The position test reads `deliver_upto` and `parked` alone. -/
theorem Slot.At.congr {r r' : ReaderProxy} (h : s.At r base)
    (hup : r'.deliverUpto = r.deliverUpto) (hp : r'.parked = r.parked) : s.At r' base := by
  cases s with
  | cur => exact ⟨hup.trans h.1, hp.trans h.2⟩
  | next => exact lt_of_eq_of_lt hup h

/-- Replacing a slot moves nothing. -/
theorem moves_setSlot (x : ReaderSide) (s : Slot) (a : Assembly) :
    Moves L x { x with r := x.r.setSlot s a } :=
  ⟨[], (List.append_nil _).symm, fun _ hf => absurd hf List.not_mem_nil,
    (setSlot_deliverUpto x.r s a).symm⟩

/-- The head the buffers could not hold is skipped with a report. -/
theorem headTooBig_kept (hF : 0 < F) (hL : LogOk F L)
    (ht : t.reliable) (h : RInv F L x.r) (hst : x.r.started = true) (hat : Slot.cur.At x.r m.base)
    (hcount : 0 < m.count) :
    Kept F L x (headTooBig t sink x m now) := by
  unfold headTooBig
  dsimp only
  rw [if_pos ht]
  have hskip : Kept F L x { x with
      r := readerMoveTo x.r (m.base + m.count)
      fx := x.fx ++ [.tooBig m.base m.count m.sampleLen] } :=
    ⟨readerMoveTo_inv h.next_ok hst (h.not_held hat.2),
      moves_span (s := ⟨m.base, m.count⟩) rfl trivial rfl hat.1.symm hcount
        (readerMoveTo_deliverUpto _ _),
      readerMoveTo_started _ _, readerMoveTo_used _ _⟩
  have hq := readerAckNow_quiet { x with
      r := readerMoveTo x.r (m.base + m.count)
      fx := x.fx ++ [.tooBig m.base m.count m.sampleLen] } true false
  have hack := hskip.quiet hq
  refine kept_trans hack (readerDeliver_kept hF hL ht hack.inv (hack.started.trans hst) ?_)
  exact (hq.1.parked.trans (readerMoveTo_parked _ _)).trans hat.2

theorem countFrag_quiet (x : ReaderSide) (m : DataMsg) (newFrag : Bool) (now : Nat) :
    Quiet x (countFrag x m newFrag now) := by
  refine quiet_trans (quiet_stat x fun c => { c with fragsRecv := c.fragsRecv + 1 }) ?_
  unfold countFrag
  dsimp only
  split
  next =>
    split
    next => exact endProbe_quiet _ now
    next => exact quiet_refl _
  next => exact quiet_stat _ _

/-- What follows a stored fragment moves only by deliveries. -/
theorem fragStored_kept {newFrag : Bool} (hF : 0 < F)
    (hL : LogOk F L) (ht : t.reliable) (h : RInv F L x.r) (hst : x.r.started = true)
    (hp : s = .cur → x.r.parked = false) :
    Kept F L x (fragStored t sink x s m newFrag now) := by
  unfold fragStored
  dsimp only
  split
  next => exact kept_refl h
  next hcur =>
    split
    next =>
      refine readerDeliver_kept hF hL ht h hst (hp ?_)
      cases s with
      | cur => rfl
      | next => exact absurd rfl hcur
    next =>
      split
      next => exact kept_of_quiet h (readerAckNow_quiet _ false false)
      next => exact kept_refl h

/-- A fragment of a committed sample goes into a slot that is free or assembles that
sample already, and has room for it. -/
theorem acceptFrag_kept {c : Committed} (hF : 0 < F)
    (hL : LogOk F L) (ht : t.reliable) (hc : c ∈ L) (hbase : m.base = c.base)
    (hcount : m.count = c.count) (hlen : m.sampleLen = c.bytes.length)
    (hoff : m.frag * F ≤ c.bytes.length) (hpay : m.payload = fragment F c.bytes m.frag)
    (h : RInv F L x.r) (hst : x.r.started = true) (hat : s.At x.r m.base)
    (hact : (x.r.slot s).active = true → AsmFor F c (x.r.slot s))
    (hroom : m.sampleLen ≤ (x.r.slot s).buf.length ∧ (m.count + 7) / 8 ≤ (x.r.slot s).bitmapCap) :
    Kept F L x (acceptFrag t F sink x s m now) := by
  -- the slot assembles the sample, started for it now or before
  obtain ⟨a, ha⟩ : ∃ a, a = if (x.r.slot s).active = true then x.r.slot s
      else asmStart (x.r.slot s) m.base m.count m.sampleLen := ⟨_, rfl⟩
  have hfor : AsmFor F c a := by
    rw [ha]
    split
    next hact' => exact hact hact'
    next => exact asmStart_for hbase hcount hlen hroom.1 hroom.2
  have hset : ∀ b, AsmFor F c b → Kept F L x { x with r := x.r.setSlot s b } := by
    intro b hb
    refine ⟨h.setSlot hst (fun _ => ⟨c, hc, hb⟩) ?_, moves_setSlot x s b, setSlot_started _ _ _,
      setSlot_used _ _ _⟩
    rw [hb.base, ← hbase]
    exact hat
  have hstore : AsmFor F c (asmStore F a m.frag m.payload) := by
    rw [hpay]
    exact asmStore_for hF hfor hoff
  unfold acceptFrag
  dsimp only
  rw [← ha, if_neg (fun hne => hne (hcount.trans hfor.count.symm))]
  obtain ⟨b, hb⟩ : ∃ b, b = if (!a.bitmap m.frag) = true then asmStore F a m.frag m.payload
      else a := ⟨_, rfl⟩
  have hbfor : AsmFor F c b := by
    rw [hb]
    split
    next => exact hstore
    next => exact hfor
  rw [← hb]
  have hk := hset b hbfor
  have hq := countFrag_quiet { x with r := x.r.setSlot s b } m (!a.bitmap m.frag) now
  have hkz := hk.quiet hq
  refine kept_trans hkz (fragStored_kept hF hL ht hkz.inv (hkz.started.trans hst) ?_)
  rintro rfl
  exact hq.1.parked.trans hat.2

/-- A fragment of a committed sample for the slot where that sample belongs. -/
theorem fitSlot_kept (sink : Sink) (al : Alloc) (s : Slot) (now : Nat)
    (hF : 0 < F) (hL : LogOk F L) (ht : t.reliable) (hm : DataOk F L m)
    (h : RInv F L x.r) (hst : x.r.started = true) (hat : s.At x.r m.base)
    (hfree : s = .next → x.r.next.active = false ∨ x.r.next.base = m.base) :
    Kept F L x (fitSlot t F sink al x s m now) := by
  obtain ⟨c, hc, hseq, hfrag, hcount, hlen, hoff, hpay⟩ := hm.sample
  have hbase := DataOk.base_eq hseq
  -- an active slot here assembles this very sample, and then has room for it
  have hact : (x.r.slot s).active = true → AsmFor F c (x.r.slot s) := by
    intro hact
    have hok : AsmOk F L (x.r.slot s) ∧ (x.r.slot s).base = m.base := by
      cases s with
      | cur => exact ⟨h.cur_ok, (h.cur_base hact).trans hat.1⟩
      | next =>
        refine ⟨h.next_ok, (hfree rfl).resolve_left fun hn => ?_⟩
        exact Bool.noConfusion (hn.symm.trans hact)
    obtain ⟨d, hd, hfor⟩ := hok.1 hact
    have hdc : d = c := hL.base_inj d hd c hc (by rw [← hfor.base, hok.2, hbase])
    rw [← hdc]
    exact hfor
  unfold fitSlot
  by_cases hact' : (x.r.slot s).active = true
  · have hfor := hact hact'
    have hroom : m.sampleLen ≤ (x.r.slot s).buf.length ∧
        (m.count + 7) / 8 ≤ (x.r.slot s).bitmapCap := by
      rw [hlen, ← hfor.len, hcount, ← hfor.count]
      exact ⟨hfor.fits, hfor.bitmap_fits⟩
    rw [asmFit_room hroom.1 hroom.2]
    have hsame : x.r.setSlot s (x.r.slot s) = x.r := by cases s <;> rfl
    dsimp only
    rw [hsame]
    exact acceptFrag_kept hF hL ht hc hbase hcount hlen hoff hpay h hst hat hact hroom
  rw [Bool.not_eq_true] at hact'
  have hspec := asmFit_spec al (x.r.slot s) m.sampleLen m.count
  have hpk : s = .cur → x.r.parked = false := by
    rintro rfl
    exact hat.2
  have hset : ∀ a : Assembly, a.active = false →
      Kept F L x { x with r := x.r.setSlot s a } := fun a hina =>
    ⟨h.clearSlot hst hina hpk, moves_setSlot x s a, setSlot_started _ _ _,
      setSlot_used _ _ _⟩
  have hat' : ∀ a : Assembly, s.At (x.r.setSlot s a) m.base := fun a =>
    hat.congr (setSlot_deliverUpto _ _ _) (setSlot_parked _ _ _)
  split
  next a hfit =>
    rw [hfit] at hspec
    have hina := hspec.1.trans hact'
    have hk := hset a hina
    refine kept_trans hk (acceptFrag_kept hF hL ht hc hbase hcount hlen hoff hpay hk.inv
      (hk.started.trans hst) (hat' a) ?_ ?_)
    · intro ha
      rw [slot_setSlot] at ha
      exact Bool.noConfusion (hina.symm.trans ha)
    · rw [slot_setSlot]
      exact hspec.2.2 rfl
  next a hfit =>
    rw [hfit] at hspec
    have hk := hset a (hspec.1.trans hact')
    dsimp only
    split
    next => exact hk.quiet (quiet_stat _ _)
    next hne =>
      have hs : s = .cur := by
        cases s with
        | cur => rfl
        | next => exact absurd rfl hne
      subst hs
      refine kept_trans hk (headTooBig_kept hF hL ht hk.inv (hk.started.trans hst) (hat' a) ?_)
      rw [hcount]
      exact hL.count_pos c hc

/-- A DATA submessage of a committed sample. -/
theorem readerData_arrived (hF : 0 < F) (hL : LogOk F L)
    (ht : t.reliable) (hm : DataOk F L m) (h : RInv F L x.r) :
    Arrived F L x (readerData t F sink al x m now) m.base := by
  unfold readerData
  dsimp only
  split
  next hu => exact arrived_of_quiet h (fun hu' => Bool.noConfusion (hu.symm.trans hu')) (quiet_stat x _)
  next hu =>
    rw [Bool.not_eq_false] at hu
    split
    next hbad => exact absurd hbad (hm.wellFormed hL)
    rcases readerOrder_cases m.base m.seqno m.ackReq ht h with
      ⟨x', heq, hq, hst⟩ | ⟨x', heq, hq, hst, hup⟩ | ⟨x', o, heq, ho, hpos⟩
    · rw [heq]
      exact arrived_of_quiet h (fun _ => hst)
        (quiet_trans hq (quiet_trans (quiet_stat _ _) (ackOld_quiet _)))
    · rw [heq]
      dsimp only
      split
      next hfree =>
        -- a future sample, held ahead
        have hx' := h.congr hq.1
        have hsame : ({ x'.r with started := true } : ReaderProxy) = x'.r := by
          rw [← hq.1.started.trans hst]
        unfold fillSlot
        rw [hsame]
        have hall := kept_trans (kept_of_quiet h hq) (fitSlot_kept sink al .next now
          hF hL ht hm hx' (hq.1.started.trans hst)
          (lt_of_eq_of_lt hq.1.deliverUpto hup) fun _ => hfree)
        exact ⟨hall.inv, hall.used, fun _ => hall.started.trans hst, Or.inr (Or.inl ⟨hst, hall.started.trans hst, hall.moves⟩)⟩
      next => exact arrived_of_quiet h (fun _ => hst) (quiet_trans hq (quiet_stat _ _))
    · rw [heq]
      rcases ho with ⟨rfl, hp⟩ | rfl
      · -- adopted: the lane holds nothing, so emptying its head changes nothing
        have hp' : x'.r.parked = false := hpos.parked.trans hp
        have hpos' : Positioned F L x { x' with
            stats := { x'.stats with fragsAhead := x'.stats.fragsAhead + 1 }
            r := { x'.r with cur := { x'.r.cur with active := false } } } m.base :=
          ⟨hpos.inv.clearSlot (s := .cur) rfl rfl fun _ => hp', hpos.upto, hpos.stays, hpos.fx,
            hpos.parked, hpos.started, hpos.used⟩
        exact hpos'.arrived hu (fitSlot_kept _ _ _ _ hF hL ht hm hpos'.inv rfl ⟨hpos.upto, hp'⟩
          (fun hs => Slot.noConfusion hs))
      · dsimp only
        split
        next hpk =>
          -- parked: a fragment of the held sample
          have hst := h.started_of_parked (hpos.parked.symm.trans hpk)
          have hsame : ({ x'.r with started := true } : ReaderProxy) = x'.r := by
            rw [← hpos.started.trans hst]
          refine hpos.arrived hu ?_
          rw [hsame]
          exact kept_of_quiet (hsame ▸ hpos.inv) (quiet_stat _ _)
        next hp =>
          rw [Bool.not_eq_true] at hp
          exact hpos.arrived hu (fitSlot_kept _ _ _ _ hF hL ht hm hpos.inv rfl ⟨hpos.upto, hp⟩
            (fun hs => Slot.noConfusion hs))

/-! ## Heartbeats -/

/-- A floor skip reports every seqno it passes. -/
theorem hbSkip_kept {m : HbMsg} (hF : 0 < F) (hL : LogOk F L) (ht : t.reliable)
    (hd : t.directed = false) (h : RInv F L x.r) (hs : hbSkips x.r m.first) :
    Kept F L x (hbSkip t sink x m now) := by
  have hup : x.r.deliverUpto < m.first := hs.2.1
  unfold hbSkip
  obtain ⟨upto, hupto⟩ : ∃ upto, upto = if t.directed = false ∧ x.r.parked = false ∧ x.r.lapped = true
      ∧ m.first < u64Succ m.last then u64Succ m.last else m.first := ⟨_, rfl⟩
  have hle : x.r.deliverUpto < upto := by
    rw [hupto]
    split
    next hc => exact Nat.lt_trans hup hc.2.2.2
    next => exact hup
  dsimp only
  rw [← hupto, hd]
  simp only [Bool.false_eq_true, if_false]
  refine kept_trans (y := { x with
    stats := { x.stats with msgsSkipped := x.stats.msgsSkipped + (upto - x.r.deliverUpto) }
    r := readerMoveTo { x.r with
      lapped := x.r.lapped || !x.r.parked, rttProbe := false, parked := false
      parkedShm := false, shmFail := 0 } upto
    fx := x.fx ++ [.lost x.r.deliverUpto (upto - x.r.deliverUpto)] }) ⟨?_, ?_, ?_, ?_⟩
    (readerDeliver_kept hF hL ht ?_ ?_ ?_)
  · exact readerMoveTo_inv h.next_ok hs.1 rfl
  · refine moves_span (s := ⟨x.r.deliverUpto, upto - x.r.deliverUpto⟩) rfl trivial rfl rfl
      (by show 0 < upto - x.r.deliverUpto; omega) ?_
    show _ = x.r.deliverUpto + (upto - x.r.deliverUpto)
    rw [readerMoveTo_deliverUpto]
    omega
  · exact readerMoveTo_started _ _
  · exact readerMoveTo_used _ _
  · exact readerMoveTo_inv h.next_ok hs.1 rfl
  · exact (readerMoveTo_started _ _).trans hs.1
  · exact readerMoveTo_parked _ _

/-- A heartbeat. -/
theorem readerHb_kept (sink : Sink) (m : HbMsg) (now : Nat) (hF : 0 < F) (hL : LogOk F L)
    (hd : t.directed = false) (h : RInv F L x.r) : Kept F L x (readerHb t sink x m now) := by
  unfold readerHb
  split
  next => exact kept_refl h
  next hu =>
    have ht : t.reliable := Decidable.not_not.mp fun hn => hu (Or.inr hn)
    obtain ⟨y, hy⟩ : ∃ y, y = if hbSkips x.r m.first then hbSkip t sink x m now else x := ⟨_, rfl⟩
    have hk : Kept F L x y := by
      rw [hy]
      split
      next hs => exact hbSkip_kept hF hL ht hd h hs
      next => exact kept_refl h
    dsimp only
    rw [← hy]
    split
    next => exact hk
    next =>
      refine hk.quiet (quiet_trans ?_ (readerAckNow_quiet _ true true))
      exact quiet_of_fx_eq ⟨rfl, rfl, rfl, rfl, rfl, rfl, rfl⟩ rfl

/-- A heartbeat at a lane without a position only arms an ack. -/
theorem readerHb_quiet {m : HbMsg} (hst : x.r.started = false) :
    Quiet x (readerHb t sink x m now) := by
  have hno : ¬ hbSkips x.r m.first := fun hs => Bool.noConfusion (hst.symm.trans hs.1)
  unfold readerHb
  split
  next => exact quiet_refl x
  dsimp only
  split
  next => exact quiet_refl x
  next =>
    refine quiet_trans ?_ (readerAckNow_quiet _ true true)
    exact quiet_of_fx_eq ⟨rfl, rfl, rfl, rfl, rfl, rfl, rfl⟩ rfl

/-! ## Acks, match and resume -/

/-- Sending an ACKNACK touches neither position nor assemblies. -/
theorem nackAsked_quiet (t : Topic) (x : ReaderSide) (firstMissing top : Nat) (bitmap : BitVec 32)
    (probe : Option Nat) (now : Nat) :
    Quiet x (nackAsked t x firstMissing top bitmap probe now) := by
  have hprobe : ∀ (r : ReaderProxy) (s : Nat), SameCore r (if r.rttProbe then r
      else { r with rttProbe := true, rttProbeSeq := s, rttProbeUs := now }) := by
    intro r s
    split
    next => exact sameCore_refl r
    next => exact ⟨rfl, rfl, rfl, rfl, rfl, rfl, rfl⟩
  have hdisarm : ∀ (r : ReaderProxy) (b : Bool),
      SameCore r (if b then { r with rttProbe := false } else r) := by
    intro r b
    split
    next => exact ⟨rfl, rfl, rfl, rfl, rfl, rfl, rfl⟩
    next => exact sameCore_refl r
  unfold nackAsked
  cases probe with
  | none =>
    refine quiet_of_fx_eq (sameCore_trans ?_ (hdisarm _ _)) rfl
    exact ⟨rfl, rfl, rfl, rfl, rfl, rfl, rfl⟩
  | some s =>
    refine quiet_of_fx_eq (sameCore_trans (sameCore_trans ?_ (hdisarm _ _)) (hprobe _ s)) rfl
    exact ⟨rfl, rfl, rfl, rfl, rfl, rfl, rfl⟩

theorem keepLive_quiet (x : ReaderSide) : Quiet x (keepLive x) :=
  ⟨⟨rfl, rfl, rfl, rfl, rfl, rfl, rfl⟩, [.arm x.r.nackRetransmitUs], rfl,
    fun f hf => by rw [List.mem_singleton.mp hf]; trivial⟩

theorem nackRepair_quiet (t : Topic) (x : ReaderSide) (firstMissing now : Nat) :
    Quiet x (nackRepair t x firstMissing now).1 := by
  unfold nackRepair
  split
  next =>
    dsimp only
    split
    next => exact keepLive_quiet x
    next => exact quiet_trans (nackAsked_quiet _ _ _ _ _ _ _) (keepLive_quiet _)
  next => exact quiet_of_fx_eq ⟨rfl, rfl, rfl, rfl, rfl, rfl, rfl⟩ rfl

theorem nackReply_quiet (t : Topic) (x : ReaderSide) (force : Bool) (now : Nat) :
    Quiet x (nackReply t x force now).1 := by
  have hrep := nackRepair_quiet t x x.r.firstMissing now
  unfold nackReply
  dsimp only
  split
  next => exact hrep
  next => exact hrep

theorem readerEmit_quiet (t : Topic) (x : ReaderSide) (dormant : Bool) (cap now : Nat) :
    Quiet x (readerEmit t x dormant cap now).1 := by
  have hclear : Quiet x { x with r := { x.r with
      ackPending := false, ackForce := false, ackReq := false } } :=
    quiet_of_fx_eq ⟨rfl, rfl, rfl, rfl, rfl, rfl, rfl⟩ rfl
  unfold readerEmit
  split
  next => exact quiet_refl x
  split
  next => exact quiet_refl x
  dsimp only
  split
  next => exact hclear
  split
  next => exact hclear
  next =>
    exact quiet_trans hclear (nackReply_quiet t _ _ now)

/-- A resume delivers the held sample, drops an unresolvable descriptor for repair, or
leaves the lane parked. -/
theorem deliverParked_kept (hF : 0 < F) (hL : LogOk F L) (ht : t.reliable)
    (h : RInv F L x.r) : Kept F L x (deliverParked t sink x) := by
  unfold deliverParked
  split
  next => exact kept_refl h
  next hnp =>
    have hp : x.r.parked = true := by
      rw [← Bool.not_eq_false]
      exact fun hc => hnp (Or.inr hc)
    have hst := h.started_of_parked hp
    split
    next hps =>
      -- a parked descriptor: it is the committed one
      obtain ⟨-, hcur, hbase, c, hc, hcb, hcc, hcd⟩ := h.held hps
      have hgen : ∀ ok, Genuine L (.shm x.r.cur.base x.r.cur.count
          (x.r.cur.buf.take shmDescBytes) ok) := fun _ => ⟨c, hc, hcb, hcc, hcd⟩
      dsimp only
      split
      next hok =>
        refine Kept.quiet (y := { x with
          r := { x.r with parked := false, parkedShm := false, cur := { x.r.cur with active := false } }
          fx := x.fx ++ [.shm x.r.cur.base x.r.cur.count (x.r.cur.buf.take shmDescBytes)
            (sink.onShm x.fx (x.r.cur.buf.take shmDescBytes))] }) ⟨?_, ?_, rfl, rfl⟩
          (readerAckNow_quiet _ false false)
        · exact ⟨asmOk_inactive rfl, h.next_ok, fun ha => Bool.noConfusion ha, h.next_base,
            fun hs => Bool.noConfusion (hst.symm.trans hs), fun hs => Bool.noConfusion hs⟩
        · refine moves_refused rfl (hgen _) ?_ rfl
          rw [hok]
          rfl
      next =>
        by_cases hok : 0 < sink.onShm x.fx (x.r.cur.buf.take shmDescBytes)
        · rw [if_pos hok]
          have hmove : Kept F L x { x with
              r := readerMoveTo { x.r with
                parked := false, parkedShm := false, shmFail := 0, lapped := false }
                (x.r.cur.base + x.r.cur.count)
              fx := x.fx ++ [.shm x.r.cur.base x.r.cur.count (x.r.cur.buf.take shmDescBytes)
                (sink.onShm x.fx (x.r.cur.buf.take shmDescBytes))] } := by
            refine ⟨readerMoveTo_inv h.next_ok hst rfl, ?_, readerMoveTo_started _ _,
              readerMoveTo_used _ _⟩
            refine moves_span (s := ⟨x.r.cur.base, x.r.cur.count⟩) rfl (hgen _) ?_ hbase ?_
              (readerMoveTo_deliverUpto _ _)
            · unfold Effect.span
              exact if_pos hok
            · rw [← hcc]
              exact hL.count_pos c hc
          have hq := readerAckNow_quiet { x with
            r := readerMoveTo { x.r with
              parked := false, parkedShm := false, shmFail := 0, lapped := false }
              (x.r.cur.base + x.r.cur.count)
            fx := x.fx ++ [.shm x.r.cur.base x.r.cur.count (x.r.cur.buf.take shmDescBytes)
              (sink.onShm x.fx (x.r.cur.buf.take shmDescBytes))] } true false
          have hack := hmove.quiet hq
          exact kept_trans hack (readerDeliver_kept hF hL ht hack.inv (hack.started.trans hst)
            (hq.1.parked.trans (readerMoveTo_parked _ _)))
        · rw [if_neg hok]
          refine ⟨h, moves_refused rfl (hgen _) ?_ rfl, rfl, rfl⟩
          unfold Effect.span
          exact if_neg hok
    next hps =>
      rw [Bool.not_eq_true] at hps
      have hun : Kept F L x { x with r := { x.r with parked := false } } := by
        refine ⟨⟨h.cur_ok, h.next_ok, h.cur_base, h.next_base, ?_, ?_⟩,
          ⟨[], (List.append_nil _).symm, fun _ hf => absurd hf List.not_mem_nil, rfl⟩, rfl, rfl⟩
        · exact fun hs => Bool.noConfusion (hst.symm.trans hs)
        · exact fun hs => Bool.noConfusion (hps.symm.trans hs)
      exact kept_trans hun (readerDeliver_kept hF hL ht hun.inv hst rfl)

/-- A freshly matched reader lane has no position and holds nothing. -/
theorem readerMatch_inv (t : Topic) (epoch : Nat) (x : ReaderSide) :
    RInv F L (readerMatch t epoch x).r ∧ (readerMatch t epoch x).r.started = false := by
  have hfresh : RInv F L ({ cur := { x.r.cur with active := false }
                            next := { x.r.next with active := false }
                            epoch := epoch, used := true } : ReaderProxy) :=
    ⟨asmOk_inactive rfl, asmOk_inactive rfl, fun ha => Bool.noConfusion ha,
      fun ha => Bool.noConfusion ha, fun _ => ⟨rfl, rfl, rfl, rfl⟩, fun hs => Bool.noConfusion hs⟩
  unfold readerMatch
  dsimp only
  split
  next => exact ⟨hfresh.congr ⟨rfl, rfl, rfl, rfl, rfl, rfl, rfl⟩, rfl⟩
  next => exact ⟨hfresh, rfl⟩

/-- A match calls no sink. -/
theorem readerMatch_fx (t : Topic) (epoch : Nat) (x : ReaderSide) :
    ∃ es, (readerMatch t epoch x).fx = x.fx ++ es ∧ ∀ f ∈ es, Silent f := by
  unfold readerMatch
  dsimp only
  split
  next => exact ⟨[.wake], rfl, fun f hf => by rw [List.mem_singleton.mp hf]; trivial⟩
  next => exact ⟨[], (List.append_nil _).symm, fun f hf => absurd hf List.not_mem_nil⟩

end Rant.Transport
