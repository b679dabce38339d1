import Rant.Transport.History
import Rant.Transport.Nack
/-!
# A lane of a directed topic

On a directed topic the samples of one seqno line have different destinations, and a lane
steps over those that are not for it. What carries it is where a lane's two positions may
stand (`Pos`): at or past where the lane joined, and never inside a sample that is another
lane's. From such a state a lane only ever puts samples on the wire that are for it and were
committed after it joined (`emit_owed`).
-/

namespace Rant.Transport

open Rant.Lib

variable {frag : Nat} {t : Topic} {S : List WriterSample} {p lo : Nat}

/-- A directed topic, which never replays. -/
structure Directed (t : Topic) : Prop where
  directed : t.directed = true
  catchUp : t.qos.catchUp = 0

/-- The seqno a submessage carries data of. -/
def Submsg.carries : Submsg → Option Nat
  | .data m => some m.seqno
  | .shm m => some m.base
  | .hb _ => none

/-- Not inside a cached sample that is another lane's. -/
def Clear (t : Topic) (p q : Nat) : Prop :=
  ∀ s, sampleFind t q = some s → s.base < q → s.dest.admits p

/-- A position of a lane that joined at `lo`. -/
structure Pos (t : Topic) (p lo q : Nat) : Prop where
  joined : lo ≤ q
  le_next : q ≤ t.nextSeqno
  clear : Clear t p q

/-- A lane that joined at `lo`. -/
structure LaneOk (t : Topic) (p lo : Nat) (w : WriterProxy) : Prop where
  sent : Pos t p lo w.sentUpto
  acked : Pos t p lo w.ackedUpto
  nack : w.hasNack = true → lo ≤ w.nackBase

/-- A join position: no sample of the log spans it. -/
def Boundary (S : List WriterSample) (lo : Nat) : Prop :=
  ∀ s ∈ S, s.base < lo → s.base + s.count ≤ lo

/-- What a lane that joined at `lo` may put on the wire: of a cached sample that is for it and
was committed since. -/
def Owed (t : Topic) (S : List WriterSample) (p lo : Nat) (out : Option Submsg) : Prop :=
  ∀ m q, out = some m → m.carries = some q →
    ∃ s, Cached t S s ∧ s.dest.admits p ∧ lo ≤ s.base ∧ s.base ≤ q ∧ q < s.base + s.count

theorem owed_none : Owed t S p lo none := fun m q hm => by cases hm

theorem Directed.join (h : Directed t) : unicastJoinSeqno t = t.nextSeqno := by
  have hfresh : ¬ t.replaysFresh := by
    rintro ⟨-, hd⟩
    rw [h.directed] at hd
    cases hd
  unfold unicastJoinSeqno
  exact if_pos (Or.inr ⟨h.catchUp, hfresh⟩)

/-! ## Positions -/

/-- The end of the seqno line is inside nothing. -/
theorem clear_next (h : History frag t S) : Clear t p t.nextSeqno := by
  intro s hs _
  obtain ⟨hc, -, hlt⟩ := sampleFind_some h hs
  have hstop := h.stop_le hc.mem
  omega

theorem boundary_next (h : History frag t S) : Boundary S t.nextSeqno :=
  fun _ hs _ => h.stop_le hs

/-- Nor is the first cached seqno. -/
theorem clear_first (h : History frag t S) (hS : 0 < S.length) : Clear t p t.firstSeqno := by
  intro s hs hlt
  exfalso
  obtain ⟨⟨i, hwin, hi⟩, -, hq⟩ := sampleFind_some h hs
  obtain ⟨a, htiles⟩ := h.tiles
  obtain ⟨hil, rfl⟩ := List.getElem?_eq_some_iff.mp hi
  have hfirst := h.first hS
  have hd := h.ring.depth_pos
  rw [hfirst] at hlt hq
  by_cases hsame : i = S.length - t.qos.keepLast
  · subst hsame
    exact Nat.lt_irrefl _ hlt
  have hle := tiles_getElem_le htiles (i := S.length - t.qos.keepLast) (j := i) (by omega) hil
    (by omega)
  have hpos := (h.samples _ (List.getElem_mem (l := S)
    (n := S.length - t.qos.keepLast) (by omega))).count_pos
  have hle : S[S.length - t.qos.keepLast].base + S[S.length - t.qos.keepLast].count
      ≤ S[i].base := hle
  rw [List.get_eq_getElem] at hlt
  dsimp only at hlt
  omega

variable {q : Nat}

/-- A seqno past the first cached one has its sample. -/
theorem sampleFind_evicted (h : History frag t S) (hS : 0 < S.length)
    (hn : sampleFind t q = none) (hq : q < t.nextSeqno) : q < t.firstSeqno := by
  by_contra hge
  obtain ⟨a, htiles⟩ := h.tiles
  have hfirst := h.first hS
  have hd := h.ring.depth_pos
  have hat : t.firstSeqno = (S.get ⟨S.length - t.qos.keepLast, by omega⟩).base := hfirst
  have hla : a ≤ t.firstSeqno := by
    rw [hat]
    exact (tiles_mem htiles (List.mem_map_of_mem (List.get_mem S _))).1
  have hone := tiles_countP htiles (q := q) (by omega) hq
  obtain ⟨u, hu, hcov⟩ := List.countP_pos_iff.mp (hone ▸ Nat.one_pos)
  obtain ⟨s, hs, rfl⟩ := List.mem_map.mp hu
  obtain ⟨i, hi, rfl⟩ := List.mem_iff_getElem.mp hs
  have hcov : S[i].base ≤ q ∧ q < S[i].base + S[i].count := Span.covers_iff.mp hcov
  refine sampleFind_none h hn ⟨i, ?_, List.getElem?_eq_getElem hi⟩ hcov
  -- an item before the window would end at or before the first cached seqno
  by_contra hout
  have hle := tiles_getElem_le htiles (i := i) (j := S.length - t.qos.keepLast) hi (by omega)
    (by omega)
  have hle : S[i].base + S[i].count ≤ S[S.length - t.qos.keepLast].base := hle
  rw [List.get_eq_getElem] at hat
  dsimp only at hat
  omega

/-! ## Stepping over -/

/-- `n` turns are enough to step over every cached sample from position `q` on. -/
def Enough (t : Topic) (S : List WriterSample) (q n : Nat) : Prop :=
  ∀ s, sampleFind t q = some s → ∃ i, S[i]? = some s ∧ S.length ≤ i + n

theorem enough_depth (h : History frag t S) (q : Nat) : Enough t S q t.qos.keepLast := by
  intro s hs
  obtain ⟨⟨i, hwin, hi⟩, -⟩ := sampleFind_some h hs
  exact ⟨i, hi, hwin⟩

theorem Enough.zero (h : Enough t S q 0) : sampleFind t q = none := by
  cases hf : sampleFind t q with
  | none => rfl
  | some s =>
    obtain ⟨i, hi, hle⟩ := h s hf
    have := (List.getElem?_eq_some_iff.mp hi).1
    omega

variable {s : WriterSample}

/-- One turn fewer past the sample found. -/
theorem Enough.next (h : History frag t S) {n : Nat} (he : Enough t S q (n + 1))
    (hs : sampleFind t q = some s) : Enough t S (s.base + s.count) n := by
  intro x hx
  obtain ⟨i, hi, hle⟩ := he s hs
  obtain ⟨⟨j, -, hj⟩, -, hlt⟩ := sampleFind_some h hx
  refine ⟨j, hj, ?_⟩
  obtain ⟨hil, rfl⟩ := List.getElem?_eq_some_iff.mp hi
  obtain ⟨hjl, rfl⟩ := List.getElem?_eq_some_iff.mp hj
  obtain ⟨a, htiles⟩ := h.tiles
  by_contra hfew
  rcases Nat.lt_or_eq_of_le (show j ≤ i by omega) with hji | rfl
  · have hle' : S[j].base + S[j].count ≤ S[i].base := tiles_getElem_le htiles hjl hil hji
    omega
  · omega

theorem advanceAcked_pos (h : History frag t S) : ∀ (n : Nat) (w : WriterProxy),
    lo ≤ w.ackedUpto → w.ackedUpto ≤ t.nextSeqno → Enough t S w.ackedUpto n →
      Pos t p lo (advanceAcked t p n w).ackedUpto ∧
        (advanceAcked t p n w).sentUpto = w.sentUpto
  | 0, w, hlo, hnext, hn => by
    refine ⟨⟨hlo, hnext, fun s hs _ => ?_⟩, rfl⟩
    have hs : sampleFind t w.ackedUpto = some s := hs
    rw [hn.zero] at hs
    cases hs
  | n + 1, w, hlo, hnext, hn => by
    unfold advanceAcked
    split
    next hnone =>
      refine ⟨⟨hlo, hnext, fun s hs _ => ?_⟩, rfl⟩
      rw [hnone] at hs
      cases hs
    next s hs =>
      split
      next hmine =>
        refine ⟨⟨hlo, hnext, fun x hx _ => ?_⟩, rfl⟩
        rw [hs] at hx
        rw [← Option.some.inj hx]
        exact hmine
      next =>
        obtain ⟨hc, -, hlt⟩ := sampleFind_some h hs
        exact advanceAcked_pos h n _ (Nat.le_of_lt (Nat.lt_of_le_of_lt hlo hlt))
          (h.stop_le hc.mem) (hn.next h hs)

/-- The second loop ends on a sample that is the lane's, or on none. -/
theorem advanceSent_pos (h : History frag t S) : ∀ (n : Nat) (w : WriterProxy),
    Pos t p lo w.sentUpto → Enough t S w.sentUpto n →
      Pos t p lo (advanceSent t p n w).sentUpto ∧
        ∀ s, sampleFind t (advanceSent t p n w).sentUpto = some s → s.dest.admits p
  | 0, w, hpos, hn => by
    refine ⟨hpos, fun s hs => ?_⟩
    have hs : sampleFind t w.sentUpto = some s := hs
    rw [hn.zero] at hs
    cases hs
  | n + 1, w, hpos, hn => by
    unfold advanceSent
    split
    next =>
      split
      next hnone =>
        refine ⟨hpos, fun s hs => ?_⟩
        rw [hnone] at hs
        cases hs
      next s hs =>
        obtain ⟨hc, hle, hlt⟩ := sampleFind_some h hs
        split
        next hskip =>
          have hnext : Pos t p lo (s.base + s.count) := by
            refine ⟨Nat.le_of_lt (Nat.lt_of_le_of_lt hpos.joined hlt), h.stop_le hc.mem, ?_⟩
            -- the end of a sample is inside none
            intro x hx hin
            obtain ⟨hcx, -, hltx⟩ := sampleFind_some h hx
            have hpos := (h.samples s hc.mem).count_pos
            have hsame : s = x := h.inj hc.mem hcx.mem (q := s.base + s.count - 1)
              (by omega) (by omega)
            rw [hsame] at hltx
            exact absurd hltx (Nat.lt_irrefl _)
          exact advanceSent_pos h n _ hnext (hn.next h hs)
        next hkeep =>
          refine ⟨hpos, fun x hx => ?_⟩
          rw [hs] at hx
          rw [← Option.some.inj hx]
          by_contra hforeign
          by_cases heq : w.sentUpto = s.base
          · exact hkeep ⟨hforeign, heq⟩
          · exact hforeign (hpos.clear s hs (by omega))
    next hend =>
      refine ⟨hpos, fun s hs => ?_⟩
      obtain ⟨hc, -, hlt⟩ := sampleFind_some h hs
      have := h.stop_le hc.mem
      omega

variable {w : WriterProxy}

/-- A lane whose acknowledged position may be inside a foreign sample comes out whole, and its
next sample is its own. -/
theorem laneAdvance_pos (h : History frag t S) (hd : Directed t)
    (hsent : Pos t p lo w.sentUpto) (hlo : lo ≤ w.ackedUpto) (hnext : w.ackedUpto ≤ t.nextSeqno)
    (hnack : w.hasNack = true → lo ≤ w.nackBase) :
    LaneOk t p lo (laneAdvance t p w) ∧
      ∀ s, sampleFind t (laneAdvance t p w).sentUpto = some s → s.dest.admits p := by
  have hstand := laneAdvance_standing t p w
  have hdir : ¬ t.directed = false := by
    rw [hd.directed]
    exact Bool.noConfusion
  unfold laneAdvance at hstand ⊢
  rw [if_neg hdir] at hstand ⊢
  dsimp only at hstand ⊢
  obtain ⟨hacked, hkept⟩ := advanceAcked_pos (p := p) h t.qos.keepLast w hlo hnext
    (enough_depth h _)
  obtain ⟨w1, hw1⟩ : ∃ w1, w1 = advanceAcked t p t.qos.keepLast w := ⟨_, rfl⟩
  rw [← hw1] at hacked hkept hstand ⊢
  obtain ⟨w2, hw2⟩ : ∃ w2, w2 = if w1.sentUpto < w1.ackedUpto
      then { w1 with sentUpto := w1.ackedUpto } else w1 := ⟨_, rfl⟩
  rw [← hw2] at hstand ⊢
  have hw2acked : w2.ackedUpto = w1.ackedUpto := by
    rw [hw2]
    split <;> rfl
  have hw2sent : Pos t p lo w2.sentUpto := by
    rw [hw2]
    split
    next => exact hacked
    next =>
      rw [hkept]
      exact hsent
  obtain ⟨hpos, hmine⟩ := advanceSent_pos h t.qos.keepLast w2 hw2sent (enough_depth h _)
  refine ⟨⟨hpos, ?_, ?_⟩, hmine⟩
  · rw [advanceSent_acked, hw2acked]
    exact hacked
  · intro hhas
    have hn : ∀ w' : WriterProxy, w'.standing = w.standing → w'.hasNack = w.hasNack ∧
        w'.nackBase = w.nackBase :=
      fun w' heq => ⟨congrArg (·.2.1) heq, congrArg (·.2.2.1) heq⟩
    obtain ⟨h1, h2⟩ := hn _ hstand
    rw [h1] at hhas
    rw [h2]
    exact hnack hhas

theorem LaneOk.advance (h : History frag t S) (hd : Directed t)
    (hw : LaneOk t p lo w) : LaneOk t p lo (laneAdvance t p w) ∧
      ∀ s, sampleFind t (laneAdvance t p w).sentUpto = some s → s.dest.admits p :=
  laneAdvance_pos h hd hw.sent hw.acked.joined hw.acked.le_next hw.nack

/-! ## What does not move a lane -/

/-- A lane's two positions. -/
def WriterProxy.at (w : WriterProxy) : Nat × Nat := (w.sentUpto, w.ackedUpto)

variable {w' : WriterProxy}

/-- A lane that kept its positions and its pending repairs, or some of them. -/
theorem LaneOk.same (h : LaneOk t p lo w) (hat : w'.at = w.at)
    (hn : w'.hasNack = true → w.hasNack = true ∧ w'.nackBase = w.nackBase) : LaneOk t p lo w' := by
  have hsent : w'.sentUpto = w.sentUpto := congrArg Prod.fst hat
  have hacked : w'.ackedUpto = w.ackedUpto := congrArg Prod.snd hat
  refine ⟨?_, ?_, ?_⟩
  · rw [hsent]
    exact h.sent
  · rw [hacked]
    exact h.acked
  · intro hhas
    obtain ⟨h1, h2⟩ := hn hhas
    rw [h2]
    exact h.nack h1

theorem standing_nack (h : w'.standing = w.standing) :
    w'.hasNack = w.hasNack ∧ w'.nackBase = w.nackBase :=
  ⟨congrArg (·.2.1) h, congrArg (·.2.2.1) h⟩

theorem LaneOk.standing (h : LaneOk t p lo w) (hat : w'.at = w.at)
    (hs : w'.standing = w.standing) : LaneOk t p lo w' := by
  obtain ⟨h1, h2⟩ := standing_nack hs
  exact h.same hat fun hn => ⟨h1 ▸ hn, h2⟩

theorem LaneOk.setNack (h : LaneOk t p lo w) (bits : BitVec 32) :
    LaneOk t p lo (w.setNack bits) := by
  refine h.same rfl fun hn => ⟨?_, rfl⟩
  have hn : (if bits = 0#32 then false else w.hasNack) = true := hn
  split at hn
  next => cases hn
  next => exact hn

theorem writerHb_at (t : Topic) (x : WriterSide) (cap now : Nat) :
    (writerHb t x cap now).1.w.at = x.w.at := by
  unfold writerHb
  split <;> rfl

theorem writerHb_owed (t' : Topic) (x : WriterSide) (cap now : Nat) :
    Owed t S p lo (writerHb t' x cap now).2 := by
  unfold writerHb
  split
  next => exact owed_none
  intro m q hm hq
  rw [← Option.some.inj hm] at hq
  cases hq

theorem writerAsk_at (t : Topic) (w : WriterProxy) (now : Nat) :
    (writerAsk t w now).1.at = w.at := by
  have hprobe : (askProbe w now).1.at = w.at := by
    unfold askProbe
    split <;> rfl
  unfold writerAsk
  dsimp only
  split
  next => exact hprobe
  next => exact hprobe

theorem pushed_at (t : Topic) (last : Bool) (now : Nat) (x : WriterSide) :
    (pushed t last now x).1.w.at = x.w.at := by
  have hask : (if last = true then writerAsk t x.w now else (x.w, false)).1.at = x.w.at := by
    split
    next => exact writerAsk_at t x.w now
    next => rfl
  unfold pushed
  split
  next =>
    obtain ⟨asked, hasked⟩ : ∃ asked, asked = if last = true then writerAsk t x.w now
      else (x.w, false) := ⟨_, rfl⟩
    rw [← hasked] at hask
    dsimp only
    rw [← hasked]
    split
    next => exact hask
    next => exact hask
  next => rfl

/-! ## What a lane puts on the wire -/

/-- A lane as the emit path has it: it stepped over what is not its own. -/
structure Turn (t : Topic) (p lo : Nat) (w : WriterProxy) : Prop where
  ok : LaneOk t p lo w
  mine : ∀ s, sampleFind t w.sentUpto = some s → s.dest.admits p

theorem Turn.same (h : Turn t p lo w) (hw : LaneOk t p lo w')
    (hat : w'.at = w.at) : Turn t p lo w' := by
  refine ⟨hw, fun s hs => h.mine s ?_⟩
  have hsent : w'.sentUpto = w.sentUpto := congrArg Prod.fst hat
  rw [← hsent]
  exact hs

theorem mkData_owed {i : Nat} {payload : Bytes} {ask : Bool}
    (hs : Cached t S s) (hmine : s.dest.admits p) (hlo : lo ≤ s.base)
    (hq : s.base ≤ q ∧ q < s.base + s.count) :
    Owed t S p lo (some (mkData s q i payload ask)) := by
  have hcarries : (mkData s q i payload ask).carries = some q := by
    unfold mkData
    split <;> rfl
  intro m r hm hr
  rw [← Option.some.inj hm, hcarries] at hr
  rw [← Option.some.inj hr]
  exact ⟨s, hs, hmine, hlo, hq.1, hq.2⟩

theorem mkShm_owed (h : History frag t S) {base count : Nat} {desc : Bytes}
    {ask : Bool} (hs : Cached t S s) (hmine : s.dest.admits p) (hlo : lo ≤ s.base)
    (hbase : base = s.base) : Owed t S p lo (some (.shm ⟨base, count, desc, ask⟩)) := by
  intro m r hm hr
  rw [← Option.some.inj hm] at hr
  have hr : base = r := Option.some.inj hr
  have hpos := (h.samples s hs.mem).count_pos
  exact ⟨s, hs, hmine, hlo, by omega, by omega⟩

/-- A sample that holds a seqno at or past a join position was committed since. -/
theorem Boundary.le (h : Boundary S lo) (hs : s ∈ S) (hq : lo ≤ q)
    (hlt : q < s.base + s.count) : lo ≤ s.base := by
  by_contra hb
  have := h s hs (Nat.lt_of_not_le hb)
  omega

variable {e : EmitEnv} {x : WriterSide}

theorem resend_owed (h : History frag t S) (hb : Boundary S lo)
    {i : Nat} (hx : Turn t e.p lo x.w) (hbase : lo ≤ x.w.nackBase)
    (hs : sampleFind t (x.w.nackBase + i) = some s) (hmine : s.dest.admits e.p) :
    Turn t e.p lo (resend e s i x).1.w ∧ Owed t S e.p lo (resend e s i x).2 := by
  obtain ⟨hc, hq, hlt⟩ := sampleFind_some h hs
  have hlo : lo ≤ s.base :=
    hb.le hc.mem (Nat.le_trans hbase (Nat.le_add_right _ _)) hlt
  unfold resend
  dsimp only
  split
  next =>
    split
    next => exact ⟨hx, owed_none⟩
    next => exact ⟨hx.same (hx.ok.setNack _) rfl, mkShm_owed h hc hmine hlo rfl⟩
  next =>
    split
    next => exact ⟨hx, owed_none⟩
    next => exact ⟨hx.same (hx.ok.setNack _) rfl, mkData_owed hc hmine hlo ⟨hq, hlt⟩⟩

/-- The repair loop serves the lane's own samples only. The induction is on the bits of the
window that are left. -/
theorem repairFrom_owed (h : History frag t S) (hd : Directed t) (hb : Boundary S lo)
    : ∀ (n : Nat) (x : WriterSide), Turn t e.p lo x.w → lo ≤ x.w.nackBase →
      Turn t e.p lo (repairFrom t e n x).1.w ∧
        ∀ r, (repairFrom t e n x).2 = some r → Owed t S e.p lo r
  | 0, x, hx, _ => ⟨hx, fun r hr => by cases hr⟩
  | n + 1, x, hx, hbase => by
    unfold repairFrom
    dsimp only
    split
    next =>
      split
      next => exact repairFrom_owed h hd hb n _ (hx.same (hx.ok.setNack _) rfl) hbase
      split
      next =>
        refine ⟨?_, fun r hr => ?_⟩
        · unfold superseded
          split
          next => exact hx
          have hset := hx.ok.setNack (clearBits x.w.nackBits x.w.nackBase
            fun q => q < if t.haveFirst then t.firstSeqno else t.nextSeqno)
          refine hx.same (hset.standing (writerHb_at _ _ _ _) (writerHb_standing _ _ _ _)) ?_
          rw [writerHb_at]
          rfl
        · rw [← Option.some.inj hr]
          unfold superseded
          split
          next => exact owed_none
          next => exact writerHb_owed _ _ _ _
      next s hs =>
        split
        next =>
          obtain ⟨hok, hmine⟩ := (hx.ok.setNack (clearBits x.w.nackBits x.w.nackBase
            fun q => s.base ≤ q ∧ q < s.base + s.count)).advance h hd
          refine repairFrom_owed h hd hb n _ ⟨hok.same rfl fun hn => ⟨hn, rfl⟩, hmine⟩ ?_
          rw [(standing_nack (laneAdvance_standing t e.p _)).2]
          exact hbase
        next hown =>
          have hmine : s.dest.admits e.p := by
            by_contra hforeign
            exact hown ⟨hd.directed, hforeign⟩
          obtain ⟨hturn, hout⟩ := resend_owed h hb hx hbase hs hmine
          refine ⟨hturn, fun r hr => ?_⟩
          rw [← Option.some.inj hr]
          exact hout
    next => exact repairFrom_owed h hd hb n x hx hbase

/-- A push moves the lane to the end of the fragment, or of the sample. -/
theorem push_owed (h : History frag t S) (hb : Boundary S lo)
    (hx : Turn t e.p lo x.w) (hs : sampleFind t x.w.sentUpto = some s) :
    LaneOk t e.p lo (push t e false false s x.w.sentUpto x).1.w ∧
      Owed t S e.p lo (push t e false false s x.w.sentUpto x).2 := by
  obtain ⟨hc, hq, hlt⟩ := sampleFind_some h hs
  have hmine := hx.mine s hs
  have hlo : lo ≤ s.base := hb.le hc.mem hx.ok.sent.joined hlt
  -- a position up to the end of the sample is inside no other
  have hpos : ∀ q, x.w.sentUpto < q → q ≤ s.base + s.count → Pos t e.p lo q := by
    intro q hlo' hhi
    refine ⟨Nat.le_of_lt (Nat.lt_of_le_of_lt hx.ok.sent.joined hlo'),
      Nat.le_trans hhi (h.stop_le hc.mem), fun y hy hin => ?_⟩
    obtain ⟨hcy, -, hlty⟩ := sampleFind_some h hy
    have hsame : s = y := h.inj hc.mem hcy.mem (q := q - 1) (by omega) (by omega)
    rw [← hsame]
    exact hmine
  have hmove : ∀ {w w' : WriterProxy} {q : Nat}, Pos t e.p lo q → w.standing = x.w.standing →
      w.at = (q, x.w.ackedUpto) → w'.at = w.at → w'.standing = w.standing → LaneOk t e.p lo w' := by
    intro w w' q hq hw hat hat' hst'
    obtain ⟨hn1, hn2⟩ := standing_nack hw
    refine LaneOk.standing ⟨?_, ?_, fun hn => ?_⟩ hat' hst'
    · have : w.sentUpto = q := congrArg Prod.fst hat
      rw [this]
      exact hq
    · have : w.ackedUpto = x.w.ackedUpto := congrArg Prod.snd hat
      rw [this]
      exact hx.ok.acked
    · rw [hn2]
      exact hx.ok.nack (hn1 ▸ hn)
  unfold push
  simp only [Bool.false_eq_true, if_false]
  split
  next =>
    split
    next => exact ⟨hx.ok, owed_none⟩
    refine ⟨?_, mkShm_owed h hc hmine hlo rfl⟩
    exact hmove (w := { x.w with sentUpto := s.base + s.count })
      (hpos (s.base + s.count) hlt (Nat.le_refl _)) rfl rfl (pushed_at _ _ _ _)
      (pushed_standing _ _ _ _)
  next =>
    split
    next => exact ⟨hx.ok, owed_none⟩
    refine ⟨?_, mkData_owed hc hmine hlo ⟨hq, hlt⟩⟩
    exact hmove (w := { x.w with sentUpto := x.w.sentUpto + 1 })
      (hpos (x.w.sentUpto + 1) (Nat.lt_succ_self _) hlt) rfl rfl (pushed_at _ _ _ _)
      (pushed_standing _ _ _ _)

/-- What fell out of the ring unsent is skipped to the first cached seqno. -/
theorem pushEvicted_owed (h : History frag t S)
    (hx : LaneOk t e.p lo x.w) (hn : sampleFind t x.w.sentUpto = none)
    (hlt : x.w.sentUpto < t.nextSeqno) :
    LaneOk t e.p lo (pushEvicted t e false x).1.w ∧
      Owed t S e.p lo (pushEvicted t e false x).2 := by
  have hpos : Pos t e.p lo (if t.haveFirst = true then t.firstSeqno else t.nextSeqno) := by
    split
    next hfirst =>
      have hS := h.haveFirst.mp hfirst
      have hgone := sampleFind_evicted h hS hn hlt
      refine ⟨Nat.le_of_lt (Nat.lt_of_le_of_lt hx.sent.joined hgone), ?_, clear_first h hS⟩
      rw [h.first hS]
      have hmem := List.get_mem S ⟨S.length - t.qos.keepLast, by have := h.ring.depth_pos; omega⟩
      have := h.stop_le hmem
      omega
    next =>
      exact ⟨Nat.le_of_lt (Nat.lt_of_le_of_lt hx.sent.joined hlt), Nat.le_refl _, clear_next h⟩
  unfold pushEvicted
  dsimp only
  rw [if_neg Bool.false_ne_true]
  split
  next => exact ⟨hx, owed_none⟩
  refine ⟨?_, writerHb_owed _ _ _ _⟩
  obtain ⟨w, hw⟩ : ∃ w, w = { x.w with
    sentUpto := if t.haveFirst = true then t.firstSeqno else t.nextSeqno, rttProbe := false } :=
    ⟨_, rfl⟩
  have hok : LaneOk t e.p lo w := by
    rw [hw]
    exact ⟨hpos, hx.acked, hx.nack⟩
  rw [← hw]
  exact hok.standing (writerHb_at _ _ _ _) (writerHb_standing _ _ _ _)

theorem emitNew_owed (h : History frag t S) (hd : Directed t) (hb : Boundary S lo)
    (hx : Turn t e.p lo x.w) :
    LaneOk t e.p lo (emitNew t e x).1.w ∧ Owed t S e.p lo (emitNew t e x).2 := by
  unfold emitNew
  split
  next hlt =>
    rw [emitPush_global (Or.inr hd.directed)]
    split
    next s hs => exact push_owed h hb hx hs
    next hn => exact pushEvicted_owed h hx.ok hn hlt
  next =>
    split
    next =>
      exact ⟨hx.ok.standing (writerHb_at _ _ _ _) (writerHb_standing _ _ _ _),
        writerHb_owed _ _ _ _⟩
    next => exact ⟨hx.ok, owed_none⟩

theorem emitFloor_owed (h : History frag t S) (hd : Directed t) (hb : Boundary S lo)
    (hx : Turn t e.p lo x.w) :
    LaneOk t e.p lo (emitFloor t e x).1.w ∧ Owed t S e.p lo (emitFloor t e x).2 := by
  unfold emitFloor
  split
  next =>
    have hok : LaneOk t e.p lo (writerHb t x e.cap e.now).1.w :=
      hx.ok.standing (writerHb_at _ _ _ _) (writerHb_standing _ _ _ _)
    have hout : Owed t S e.p lo (writerHb t x e.cap e.now).2 := writerHb_owed _ _ _ _
    split
    next heq =>
      rw [heq] at hok
      exact ⟨hok, owed_none⟩
    next heq =>
      rw [heq] at hok hout
      exact ⟨hok.same rfl fun hn => ⟨hn, rfl⟩, hout⟩
  next => exact emitNew_owed h hd hb hx

/-- A lane emits only what is its own and was committed since it joined. -/
theorem emit_owed (h : History frag t S) (hd : Directed t) (hb : Boundary S lo) (e : EmitEnv)
    (dormant : Bool) (hx : LaneOk t e.p lo x.w) :
    LaneOk t e.p lo (writerEmit t e dormant x).1.w ∧
      Owed t S e.p lo (writerEmit t e dormant x).2 := by
  obtain ⟨hok, hmine⟩ := hx.advance h hd
  have hturn : Turn t e.p lo (laneAdvance t e.p x.w) := ⟨hok, hmine⟩
  unfold writerEmit
  split
  next => exact ⟨hx, owed_none⟩
  dsimp only
  split
  next hrepair =>
    obtain ⟨hrep, hout⟩ := repairFrom_owed h hd hb nackWindow
      { x with w := laneAdvance t e.p x.w } hturn (hok.nack hrepair.2)
    split
    next r heq =>
      rw [heq] at hrep hout
      exact ⟨hrep.ok, hout r rfl⟩
    next x' heq =>
      rw [heq] at hrep
      refine emitFloor_owed h hd hb ⟨⟨hrep.ok.sent, hrep.ok.acked, fun hn => ?_⟩, hrep.mine⟩
      cases hn
  next => exact emitFloor_owed h hd hb hturn

/-! ## The rest of a lane's life -/

/-- A lane joins a directed topic at the end of its seqno line. -/
theorem match_ok (h : History frag t S) (hd : Directed t) (subReliable : Bool) :
    LaneOk t p t.nextSeqno (writerMatch t subReliable) := by
  have hpos : Pos t p t.nextSeqno (unicastJoinSeqno t) := by
    rw [hd.join]
    exact ⟨Nat.le_refl _, Nat.le_refl _, clear_next h⟩
  exact ⟨hpos, hpos, fun hn => by cases hn⟩

/-- A repair request from past the join. -/
theorem nackMerge_ok (hx : LaneOk t p lo x.w) {m : NackMsg}
    (hlo : lo ≤ m.base) : LaneOk t p lo (nackMerge x m).w := by
  have hdrop : LaneOk t p lo (nackDrop x.w m.base) := by
    unfold nackDrop
    split
    next => exact ⟨hx.sent, hx.acked, fun _ => hlo⟩
    next => exact hx
  unfold nackMerge
  dsimp only
  split
  next =>
    show LaneOk t p lo (nackAdd (nackDrop x.w m.base) m)
    unfold nackAdd
    split
    next hn => exact ⟨hdrop.sent, hdrop.acked, fun _ => hdrop.nack hn⟩
    next => exact ⟨hdrop.sent, hdrop.acked, fun _ => hlo⟩
  next => exact hdrop

/-- An ACKNACK that acks what the lane may have sent. -/
theorem nack_ok (h : History frag t S) (hd : Directed t)
    (hx : LaneOk t p lo x.w) {m : NackMsg} (hlo : lo ≤ m.base) (hnext : m.base ≤ t.nextSeqno)
    (now : Nat) : LaneOk t p lo (writerNack t p x m now).w := by
  unfold writerNack
  split
  next => exact hx
  split
  next =>
    -- the reader re incarnated: the join point is the end of the line
    have hpos : Pos t p lo (if x.w.ackedUpto < unicastJoinSeqno t then x.w.ackedUpto
        else unicastJoinSeqno t) := by
      split
      next => exact hx.acked
      next =>
        rw [hd.join]
        exact ⟨Nat.le_trans hlo hnext, Nat.le_refl _, clear_next h⟩
    exact ⟨hpos, hpos, fun hn => by cases hn⟩
  dsimp only
  split
  next =>
    split
    next => exact ⟨hx.acked, hx.acked, hx.nack⟩
    next => exact ⟨hx.sent, hx.acked, hx.nack⟩
  next =>
    obtain ⟨y, hy⟩ : ∃ y : WriterSide,
      y = { x with w := { x.w with readerEpoch := m.epoch } } := ⟨_, rfl⟩
    have hyw : LaneOk t p lo y.w := by
      rw [hy]
      exact ⟨hx.sent, hx.acked, hx.nack⟩
    rw [← hy]
    have hto : lo ≤ (ackTo y.w m).ackedUpto ∧ (ackTo y.w m).ackedUpto ≤ t.nextSeqno := by
      unfold ackTo
      dsimp only
      split
      next => exact ⟨hlo, hnext⟩
      next => exact ⟨hyw.acked.joined, hyw.acked.le_next⟩
    obtain ⟨hadv, -⟩ := laneAdvance_pos h hd (w := ackTo y.w m) hyw.sent hto.1 hto.2 hyw.nack
    have hack : LaneOk t p lo (nackAck t p y m now).w := by
      unfold nackAck
      dsimp only
      split <;> exact hadv
    exact nackMerge_ok hack hlo

variable {t' : Topic}

/-- A sample sealed behind a lane's positions leaves them clear. -/
theorem Pos.sealed {x : WriterSample} (h : Pos t p lo q)
    (hS : History frag t S) (hS' : History frag t' (S ++ [x])) (hq : t'.qos = t.qos)
    (hbase : x.base = t.nextSeqno) : Pos t' p lo q := by
  have hnext := (hS'.newest (x := x) List.getLast?_concat).2
  refine ⟨h.joined, Nat.le_trans h.le_next (by omega), fun s hs hin => ?_⟩
  obtain ⟨hc, hle, hlt⟩ := sampleFind_some hS' hs
  obtain ⟨i, hwin, hi⟩ := hc
  rw [List.length_append, List.length_singleton, hq] at hwin
  rcases Nat.lt_or_ge i S.length with hold | hnew
  · -- an older sample, in the ring before too
    rw [List.getElem?_append_left hold] at hi
    refine h.clear s ((sampleFind_iff hS).mpr ⟨⟨i, by omega, hi⟩, hle, hlt⟩) hin
  · rw [List.getElem?_append_right hnew] at hi
    rw [List.mem_singleton.mp (List.mem_of_getElem? hi), hbase] at hin
    exact absurd h.le_next (Nat.not_le_of_lt hin)

theorem LaneOk.sealed {x : WriterSample} (h : LaneOk t p lo w)
    (hS : History frag t S) (hS' : History frag t' (S ++ [x])) (hq : t'.qos = t.qos)
    (hbase : x.base = t.nextSeqno) : LaneOk t' p lo w :=
  ⟨h.sent.sealed hS hS' hq hbase, h.acked.sealed hS hS' hq hbase, h.nack⟩

/-- A lane's turn in a commit. -/
theorem commit_ok (h : History frag t S) (hd : Directed t)
    (hx : LaneOk t p lo x.w) (dest : Dest) (dormant : Bool) :
    LaneOk t p lo (commitLane t dest p dormant x).w := by
  unfold commitLane
  split
  next => exact hx
  split
  next => exact hx
  dsimp only
  split <;> exact (hx.advance h hd).1

/-- A directed topic stays one, and a lane's positions read nothing else of it. -/
theorem Pos.congr (h : Pos t p lo q) (hq : t'.qos = t.qos)
    (hh : t'.history = t.history) (hd : t'.historyHead = t.historyHead)
    (hn : t'.nextSeqno = t.nextSeqno) : Pos t' p lo q := by
  have hslot : t'.slotAt = t.slotAt := by
    funext i
    unfold Topic.slotAt
    rw [hh]
  have hfrom : ∀ k i, sampleFindFrom t' q k i = sampleFindFrom t q k i := by
    intro k
    induction k with
    | zero => exact fun _ => rfl
    | succ k ih =>
      intro i
      unfold sampleFindFrom
      rw [hq, hslot]
      dsimp only
      rw [ih]
  refine ⟨h.joined, hn ▸ h.le_next, fun s hs => h.clear s ?_⟩
  unfold sampleFind at hs ⊢
  rw [← hfrom, ← hq, ← hd]
  exact hs

theorem LaneOk.congr (h : LaneOk t p lo w) (hq : t'.qos = t.qos)
    (hh : t'.history = t.history) (hd : t'.historyHead = t.historyHead)
    (hn : t'.nextSeqno = t.nextSeqno) : LaneOk t' p lo w :=
  ⟨h.sent.congr hq hh hd hn, h.acked.congr hq hh hd hn, h.nack⟩

end Rant.Transport
