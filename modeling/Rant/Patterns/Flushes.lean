import Rant.Patterns.DirectedRuns
import Rant.Transport.History
/-!
# What a flush hands over

`i_rant_func_flush_queued` sends every queued call whose provider matched, oldest first, and
clears the entry before it looks for the next. So a request is handed to the transport once, in
order, while its call is undecided. The sends are committed one after another with no datagram
between them, into a ring of `keep_last` samples: a flush of more calls than the ring has room
for overwrites the first of them unsent.
-/

namespace Rant.Patterns

open Rant.Lib
open Rant.Transport
open ReqChannel (How)

variable {frag : Nat}

/-! ## The channel under a flush -/

/-- A channel with the same peers and lanes matched. -/
structure SameMatch (c c' : ReqChannel) : Prop where
  peers : c'.peers = c.peers
  chain : c'.req.laneChain = c.req.laneChain
  matched : c'.req.matchedWriters = c.req.matchedWriters
  used : ∀ p, (c'.lanes p).used = (c.lanes p).used
  joined : c'.joined = c.joined
  qos : c'.req.qos = c.req.qos

theorem SameMatch.refl (c : ReqChannel) : SameMatch c c := ⟨rfl, rfl, rfl, fun _ => rfl, rfl, rfl⟩

theorem SameMatch.trans {a b c : ReqChannel} (h : SameMatch a b) (g : SameMatch b c) :
    SameMatch a c :=
  ⟨g.peers.trans h.peers, g.chain.trans h.chain, g.matched.trans h.matched,
    fun p => (g.used p).trans (h.used p), g.joined.trans h.joined, g.qos.trans h.qos⟩

section same

variable {c c' : ReqChannel} (h : SameMatch c c')
include h

theorem SameMatch.matchCount : c'.matchCount = c.matchCount := h.matched

theorem SameMatch.peerMatched (id : Nat) : c'.peerMatched id = c.peerMatched id := by
  unfold ReqChannel.peerMatched publisherPeerMatched
  rw [h.peers, h.chain]
  simp only [h.used]

theorem SameMatch.flushable (p : Pending) : Caller.flushable c' p = Caller.flushable c p := by
  unfold Caller.flushable
  rw [h.peerMatched]

theorem SameMatch.countP (l : List Pending) :
    l.countP (Caller.flushable c') = l.countP (Caller.flushable c) := by
  refine List.countP_congr fun q _ => ?_
  rw [h.flushable]

theorem SameMatch.stampBytes : c'.req.stampBytes 0 = c.req.stampBytes 0 := by
  unfold Topic.stampBytes Topic.tsBytes
  rw [h.qos]

end same

theorem post_same {c c' : ReqChannel} {x : Posting} {how : How} {S : List WriterSample}
    (h : History frag c.req S) (hF : 0 < frag) (hF' : frag ≤ 65535)
    (hc : c.post frag x how = some c') : SameMatch c c' := by
  rcases post_cases h hF hF' hc with
    ⟨rfl, -⟩ | ⟨t, y, desc, rfl, -, -, -, hqos, -, hchain, hmw, -⟩
  · exact SameMatch.refl c'
  · exact ⟨rfl, hchain, hmw, commitLane_used t c (c.destOf x.dest), rfl, hqos⟩

/-! ## A turn -/

theorem pickFrom_none {c : ReqChannel} : ∀ {l : List Pending},
    Caller.pickFrom c l = none ↔ ∀ q ∈ l, Caller.flushable c q = false
  | [] => ⟨fun _ _ h => absurd h List.not_mem_nil, fun _ => rfl⟩
  | p :: l => by
    unfold Caller.pickFrom
    rw [List.forall_mem_cons, ← pickFrom_none (l := l)]
    cases Caller.pickFrom c l with
    | none => cases Caller.flushable c p <;> simp
    | some i => simp

/-- The pick is the last of the list that may be sent. -/
theorem pickFrom_last {c : ReqChannel} : ∀ {l : List Pending} {i : Nat},
    Caller.pickFrom c l = some i → ∃ f p r, l = f ++ p :: r ∧ f.length = i ∧
      Caller.flushable c p = true ∧ ∀ q ∈ r, Caller.flushable c q = false
  | [], _, h => by cases h
  | p :: l, i, h => by
    unfold Caller.pickFrom at h
    split at h
    next j hj =>
      cases h
      obtain ⟨f, q, r, rfl, rfl, hq, hr⟩ := pickFrom_last hj
      exact ⟨p :: f, q, r, rfl, rfl, hq, hr⟩
    next hnone =>
      split at h
      next hp =>
        cases h
        exact ⟨[], p, l, rfl, rfl, hp, pickFrom_none.mp hnone⟩
      next => cases h

/-- The entry after its turn. -/
def Pending.flushed (p : Pending) (isTask : Bool) (c : ReqChannel) : Pending :=
  { p with dest := Caller.flushDest isTask c p, queuedReq := none }

theorem flushable_flushed (c c' : ReqChannel) (isTask : Bool) (p : Pending) :
    Caller.flushable c' (p.flushed isTask c) = false := rfl

variable {p : Pending}

/-- What a turn does to the list. -/
theorem pending_flushOne (frag : Nat) {s : Caller} {f r : List Pending}
    (hl : s.pending = f ++ p :: r) (how : How) :
    (s.flushOne frag f.length p how).pending = f ++ p.flushed s.isTask s.chan :: r := by
  show s.pending.set f.length (p.flushed s.isTask s.chan) = _
  rw [hl, List.set_append_right _ _ (Nat.le_refl _), Nat.sub_self, List.set_cons_zero]

/-- The channel after a turn: the one the send left, or the one before where it was refused. -/
theorem chan_flushOne {s : Caller} (h : ChanBase frag s.chan) (hF : 0 < frag) (hF' : frag ≤ 65535)
    (i : Nat) (p : Pending) (how : How) :
    ChanBase frag (s.flushOne frag i p how).chan ∧ SameMatch s.chan (s.flushOne frag i p how).chan := by
  show ChanBase frag ((s.chan.post frag _ how).getD s.chan) ∧ SameMatch s.chan ((s.chan.post frag _ how).getD s.chan)
  cases hpost : s.chan.post frag (Caller.flushPosting s.isTask s.chan p) how with
  | none => exact ⟨h, SameMatch.refl s.chan⟩
  | some c' =>
    obtain ⟨S, hS, -⟩ := h.log
    exact ⟨(h.post hF hF' hpost).1, post_same hS.hist hF hF' hpost⟩

/-! ## The turns of a flush -/

namespace Caller

/-- The entries a flush sends, each with the caller its turn found. -/
def turnsFrom (frag : Nat) (how : Nat → How) : Nat → Caller → List (Caller × Pending)
  | 0, _ => []
  | n + 1, s =>
    match pickFrom s.chan s.pending with
    | none => []
    | some i =>
      match s.pending[i]? with
      | none => []
      | some p => (s, p) :: turnsFrom frag how n (s.flushOne frag i p (how n))

def turns (frag : Nat) (how : Nat → How) (s : Caller) : List (Caller × Pending) :=
  if s.chan.matchCount = 0 then [] else turnsFrom frag how s.pending.length s

end Caller

/-- Where a peer is named, its own lane is there, and else some lane is. -/
def ReqChannel.Reaches (c : ReqChannel) (dest : Option Nat) : Prop :=
  ∃ p, (c.lanes p).used = true ∧ (peerAt c.peers p).used = true ∧
    ∀ d, dest = some d → (peerAt c.peers p).id = d

/-- Newer calls stand before older ones. -/
def Sorted (l : List Pending) : Prop := (l.map Pending.serial).Pairwise (· > ·)

/-- An entry that may be sent has a lane that reaches its target. -/
theorem ChanBase.reaches {c : ReqChannel} (h : ChanBase frag c) (hm : c.matchCount ≠ 0)
    {isTask : Bool} (hp : Caller.flushable c p = true) :
    c.Reaches (Caller.flushPosting isTask c p).dest := by
  have hany : ∃ p, (c.lanes p).used = true ∧ (peerAt c.peers p).used = true := by
    obtain ⟨q, hq⟩ := h.chain.matched.mp hm
    exact ⟨q, hq, h.peer q hq⟩
  have hid : ∀ d, d ≠ 0 → Caller.flushDest isTask c p = d →
      ∃ q, (c.lanes q).used = true ∧ (peerAt c.peers q).used = true ∧ (peerAt c.peers q).id = d := by
    intro d hd hdest
    unfold Caller.flushDest at hdest
    split at hdest
    next =>
      rcases oldest_cases c with ⟨-, hzero⟩ | ⟨l, q, r, -, hlive, -, hq⟩
      · exact absurd (hdest.symm.trans hzero) hd
      · have hused := (liveLane_iff.mp hlive).1
        exact ⟨q, hused, h.peer q hused, hq.symm.trans hdest⟩
    next =>
      have hmatched : c.peerMatched d = true := by
        unfold Caller.flushable at hp
        rw [Bool.and_eq_true, Bool.or_eq_true, beq_iff_eq, hdest] at hp
        exact hp.2.resolve_left hd
      unfold ReqChannel.peerMatched publisherPeerMatched at hmatched
      split at hmatched
      next => cases hmatched
      next q hq =>
        obtain ⟨k, -, hk⟩ := List.any_eq_true.mp hmatched
        rw [Bool.and_eq_true, beq_iff_eq] at hk
        obtain ⟨-, hused, hqid⟩ := peerSlot_some hq
        exact ⟨q, hk.2 ▸ hk.1, hused, hqid⟩
  unfold Caller.flushPosting
  dsimp only
  by_cases hzero : Caller.flushDest isTask c p = 0
  · rw [if_pos hzero]
    obtain ⟨q, hq, hused⟩ := hany
    exact ⟨q, hq, hused, fun d hd => by cases hd⟩
  · rw [if_neg hzero]
    obtain ⟨q, hq, hused, hqid⟩ := hid _ hzero rfl
    exact ⟨q, hq, hused, fun d hd => hqid.trans (Option.some.inj hd)⟩

/-- What a flush of `s` that hands over `l` leaves. -/
structure Flushed (frag : Nat) (s : Caller) (l : List (Caller × Pending)) (s' : Caller) : Prop where
  base : ChanBase frag s'.chan
  same : SameMatch s.chan s'.chan
  serials : s'.pending.map Pending.serial = s.pending.map Pending.serial
  calls : s'.calls = s.calls
  posting : s'.posting = s.posting
  /-- An entry is handed over as it waited, while it may be sent. -/
  turn : ∀ t p, (t, p) ∈ l → p ∈ s.pending ∧ Caller.flushable s.chan p = true ∧ p ∈ t.pending ∧
    ChanBase frag t.chan ∧ SameMatch s.chan t.chan
  order : (l.map fun x => x.2.serial).Pairwise (· < ·)
  /-- What is handed over waits no more, and the rest is as it was. -/
  left : ∀ q ∈ s'.pending, (q ∈ s.pending ∧ q.serial ∉ l.map fun x => x.2.serial) ∨
    (q.serial ∈ l.map fun x => x.2.serial) ∧ q.queuedReq = none
  count : l.length ≤ s.pending.countP (Caller.flushable s.chan)

theorem Flushed.refl {s : Caller} (h : ChanBase frag s.chan) : Flushed frag s [] s where
  base := h
  same := SameMatch.refl s.chan
  serials := rfl
  calls := rfl
  posting := rfl
  turn _ _ hp := absurd hp List.not_mem_nil
  order := List.Pairwise.nil
  left _ hq := Or.inl ⟨hq, List.not_mem_nil⟩
  count := Nat.zero_le _

/-- The entries before one are newer, those after it older. -/
theorem Sorted.around {f r : List Pending} (h : Sorted (f ++ p :: r)) :
    (∀ q ∈ f, p.serial < q.serial) ∧ ∀ q ∈ r, q.serial < p.serial := by
  unfold Sorted at h
  rw [List.map_append, List.map_cons, List.pairwise_append, List.pairwise_cons] at h
  exact ⟨fun q hq => h.2.2 q.serial (List.mem_map_of_mem hq) p.serial List.mem_cons_self,
    fun q hq => h.2.1.1 q.serial (List.mem_map_of_mem hq)⟩

/-- A turn, and then the rest of the flush. -/
theorem Flushed.cons {s : Caller} (hs : Sorted s.pending) {f r : List Pending}
    (hl : s.pending = f ++ p :: r) (hp : Caller.flushable s.chan p = true)
    (hr : ∀ q ∈ r, Caller.flushable s.chan q = false) (hbase : ChanBase frag s.chan)
    (hF : 0 < frag) (hF' : frag ≤ 65535) {how : How} {l : List (Caller × Pending)} {s' : Caller}
    (h : Flushed frag (s.flushOne frag f.length p how) l s') : Flushed frag s ((s, p) :: l) s' := by
  obtain ⟨hbase', hsame⟩ := chan_flushOne hbase hF hF' f.length p how
  have hpend := pending_flushOne frag hl how
  rw [hl] at hs
  obtain ⟨hnewer, holder⟩ := hs.around
  -- what may be sent after the turn stood before the entry
  have hrest : ∀ q ∈ (s.flushOne frag f.length p how).pending,
      Caller.flushable (s.flushOne frag f.length p how).chan q = true → q ∈ f := by
    intro q hq hflush
    rw [hpend] at hq
    rcases List.mem_append.mp hq with hq | hq
    · exact hq
    rcases List.mem_cons.mp hq with rfl | hq
    · exact absurd hflush Bool.false_ne_true
    · rw [hsame.flushable, hr q hq] at hflush
      cases hflush
  refine ⟨h.base, hsame.trans h.same, h.serials.trans ?_, h.calls, h.posting, ?_, ?_,
    fun q hq => ?_, ?_⟩
  · rw [hpend, hl, List.map_append, List.map_append]
    rfl
  · intro t q htq
    rcases List.mem_cons.mp htq with heq | htq
    · cases heq
      have hmem : p ∈ s.pending := by
        rw [hl]
        exact List.mem_append_right _ List.mem_cons_self
      exact ⟨hmem, hp, hmem, hbase, SameMatch.refl s.chan⟩
    · obtain ⟨hq, hflush, hqt, htbase, htsame⟩ := h.turn t q htq
      refine ⟨?_, ?_, hqt, htbase, hsame.trans htsame⟩
      · rw [hl]
        exact List.mem_append_left _ (hrest q hq hflush)
      · rw [← hsame.flushable]
        exact hflush
  · refine List.pairwise_cons.mpr ⟨fun k hk => ?_, h.order⟩
    obtain ⟨⟨t, q⟩, htq, rfl⟩ := List.mem_map.mp hk
    obtain ⟨hq, hflush, -⟩ := h.turn t q htq
    exact hnewer q (hrest q hq hflush)
  · rcases h.left q hq with ⟨hq, hnot⟩ | ⟨hin, hnone⟩
    · rw [hpend] at hq
      have hkeep : q ∈ s.pending → q.serial ≠ p.serial → (q ∈ s.pending ∧
          q.serial ∉ ((s, p) :: l).map fun x => x.2.serial) := fun hmem hne =>
        ⟨hmem, fun hin => (List.mem_cons.mp hin).elim hne hnot⟩
      rcases List.mem_append.mp hq with hq | hq
      · refine Or.inl (hkeep ?_ (Nat.ne_of_gt (hnewer q hq)))
        rw [hl]
        exact List.mem_append_left _ hq
      rcases List.mem_cons.mp hq with rfl | hq
      · exact Or.inr ⟨List.mem_cons_self, rfl⟩
      · refine Or.inl (hkeep ?_ (Nat.ne_of_lt (holder q hq)))
        rw [hl]
        exact List.mem_append_right _ (List.mem_cons_of_mem _ hq)
    · exact Or.inr ⟨List.mem_cons_of_mem _ hin, hnone⟩
  · have hcount := h.count
    rw [hsame.countP, hpend, List.countP_append, List.countP_cons, flushable_flushed,
      if_neg Bool.false_ne_true] at hcount
    rw [hl, List.countP_append, List.countP_cons, hp, if_pos rfl, List.length_cons]
    omega

theorem flushFrom_spec (hF : 0 < frag) (hF' : frag ≤ 65535) (how : Nat → How) : ∀ (n : Nat) (s : Caller),
    ChanBase frag s.chan → Sorted s.pending →
      Flushed frag s (Caller.turnsFrom frag how n s) (Caller.flushFrom frag how n s) ∧
        (s.pending.countP (Caller.flushable s.chan) ≤ n →
          ∀ q ∈ (Caller.flushFrom frag how n s).pending,
            Caller.flushable (Caller.flushFrom frag how n s).chan q = false) := by
  intro n
  induction n with
  | zero =>
    intro s hbase _
    refine ⟨Flushed.refl hbase, fun hcount q hq => ?_⟩
    rw [← Bool.not_eq_true]
    exact List.countP_eq_zero.mp (Nat.le_zero.mp hcount) q hq
  | succ n ih =>
    intro s hbase hs
    unfold Caller.turnsFrom Caller.flushFrom
    cases hpick : Caller.pickFrom s.chan s.pending with
    | none => exact ⟨Flushed.refl hbase, fun _ => pickFrom_none.mp hpick⟩
    | some i =>
      obtain ⟨f, p, r, hl, rfl, hp, hr⟩ := pickFrom_last hpick
      have hget : s.pending[f.length]? = some p := by
        rw [hl, List.getElem?_append_right (Nat.le_refl _), Nat.sub_self]
        rfl
      dsimp only
      rw [hget]
      dsimp only
      obtain ⟨hbase', hsame⟩ := chan_flushOne hbase hF hF' f.length p (how n)
      have hpend := pending_flushOne frag hl (how n)
      have hs' : Sorted (s.flushOne frag f.length p (how n)).pending := by
        unfold Sorted at hs ⊢
        rw [hpend, List.map_append, List.map_cons]
        rw [hl, List.map_append, List.map_cons] at hs
        exact hs
      obtain ⟨hflushed, hends⟩ := ih (s.flushOne frag f.length p (how n)) hbase' hs'
      refine ⟨Flushed.cons hs hl hp hr hbase hF hF' hflushed, fun hcount => hends ?_⟩
      rw [hl, List.countP_append, List.countP_cons, hp, if_pos rfl] at hcount
      rw [hsame.countP, hpend, List.countP_append, List.countP_cons, flushable_flushed,
        if_neg Bool.false_ne_true]
      omega

/-- What a flush hands over and leaves, and that it ends because nothing it may send is left. -/
theorem flushQueued_spec (hF : 0 < frag) (hF' : frag ≤ 65535) (how : Nat → How) {s : Caller}
    (hbase : ChanBase frag s.chan) (hs : Sorted s.pending) :
    Flushed frag s (s.turns frag how) (s.flushQueued frag how) ∧
      (s.chan.matchCount ≠ 0 → Caller.pickFrom (s.flushQueued frag how).chan
        (s.flushQueued frag how).pending = none) := by
  unfold Caller.turns Caller.flushQueued
  by_cases hm : s.chan.matchCount = 0
  · rw [if_pos hm, if_pos hm]
    exact ⟨Flushed.refl hbase, fun hne => absurd hm hne⟩
  · rw [if_neg hm, if_neg hm]
    obtain ⟨hflushed, hends⟩ := flushFrom_spec hF hF' how s.pending.length s hbase hs
    exact ⟨hflushed, fun _ => pickFrom_none.mpr (hends List.countP_le_length)⟩

/-! ## A step -/

/-- The flush a step makes, from the caller it finds. -/
def Caller.flushing (s : Caller) : CallerEvent → Option (Caller × (Nat → How))
  | .tick _ how => some (s, how)
  | .interest id wuse subReliable how => (peerSlot s.chan.peers id).map fun p =>
      ({ s with chan := s.chan.rematch p wuse subReliable }, how)
  | .giveBack id how => (peerSlot s.chan.peers id).map fun p =>
      ({ s with chan := s.chan.removePeer p }, how)
  | _ => none

/-- No entry comes, and none that waits no more waits again. -/
structure Trims (s s' : Caller) : Prop where
  serials : (s'.pending.map Pending.serial).Sublist (s.pending.map Pending.serial)
  calls : s'.calls = s.calls
  queued : ∀ q ∈ s'.pending, ∃ p ∈ s.pending, p.serial = q.serial ∧
    (p.queuedReq = none → q.queuedReq = none)
  posting : ∀ x ∈ s'.posting, x ∈ s.posting ∨ x.serial = none

theorem Trims.of_sublist {s s' : Caller} (h : s'.pending.Sublist s.pending)
    (hc : s'.calls = s.calls) (hx : s'.posting.Sublist s.posting) : Trims s s' :=
  ⟨h.map _, hc, fun q hq => ⟨q, h.subset hq, rfl, id⟩, fun _ hy => Or.inl (hx.subset hy)⟩

theorem Trims.refl (s : Caller) : Trims s s :=
  Trims.of_sublist (List.Sublist.refl _) rfl (List.Sublist.refl _)

theorem Trims.setChan (s : Caller) (c : ReqChannel) : Trims s { s with chan := c } :=
  Trims.of_sublist (List.Sublist.refl _) rfl (List.Sublist.refl _)

theorem Flushed.trims {s s' : Caller} {l : List (Caller × Pending)} (h : Flushed frag s l s') :
    Trims s s' := by
  refine ⟨h.serials ▸ List.Sublist.refl _, h.calls, fun q hq => ?_, fun x hx => ?_⟩
  case refine_2 =>
    rw [h.posting] at hx
    exact Or.inl hx
  rcases h.left q hq with ⟨hmem, -⟩ | ⟨-, hnone⟩
  · exact ⟨q, hmem, rfl, id⟩
  · have hserial : q.serial ∈ s.pending.map Pending.serial := by
      rw [← h.serials]
      exact List.mem_map_of_mem hq
    obtain ⟨p, hp, heq⟩ := List.mem_map.mp hserial
    exact ⟨p, hp, heq, fun _ => hnone⟩

theorem Trims.trans {a b c : Caller} (h : Trims a b) (g : Trims b c) : Trims a c := by
  refine ⟨g.serials.trans h.serials, g.calls.trans h.calls, fun q hq => ?_, fun x hx => ?_⟩
  · obtain ⟨p, hp, hpq, hpn⟩ := g.queued q hq
    obtain ⟨o, ho, hop, hon⟩ := h.queued p hp
    exact ⟨o, ho, hop.trans hpq, fun hnone => hpn (hon hnone)⟩
  · rcases g.posting x hx with hx | hnone
    · exact h.posting x hx
    · exact Or.inr hnone

theorem onDown_trims (s : Caller) (id : Nat) : Trims s (s.onDown id) := by
  refine Trims.of_sublist ?_ rfl (List.Sublist.refl _)
  unfold Caller.onDown
  dsimp only
  split
  next => exact List.filter_sublist.trans List.filter_sublist
  next => exact List.filter_sublist

variable {s : Caller}

variable {e : CallerEvent}

/-- A step that neither flushes nor calls. -/
theorem step_trims (frag : Nat) (hflush : s.flushing e = none)
    (hcall : ∀ req o ok queueOk, e ≠ .call req o ok queueOk) : Trims s (s.step frag e) := by
  cases e with
  | peerAdd id =>
    show Trims s (if id = 0 then s else _)
    split
    next => exact Trims.refl s
    next => exact Trims.setChan s _
  | drop id => exact (Trims.setChan s { s.chan with peers := _ }).trans (onDown_trims _ id)
  | resume id => exact Trims.setChan s _
  | gone id =>
    dsimp only [Caller.step]
    split
    next => exact Trims.refl s
    next p _ =>
      split
      next => exact Trims.setChan s _
      next => exact (Trims.setChan s (s.chan.removePeer p)).trans (onDown_trims _ id)
  | giveBack id how =>
    have hnone : peerSlot s.chan.peers id = none := Option.map_eq_none_iff.mp hflush
    dsimp only [Caller.step]
    rw [hnone]
    exact Trims.refl s
  | interest id wuse subReliable how =>
    have hnone : peerSlot s.chan.peers id = none := Option.map_eq_none_iff.mp hflush
    dsimp only [Caller.step]
    rw [hnone]
    exact Trims.refl s
  | formed id subReliable =>
    dsimp only [Caller.step]
    split
    next => exact Trims.refl s
    next => exact Trims.setChan s _
  | call req o ok queueOk => exact absurd rfl (hcall req o ok queueOk)
  | send i how =>
    show Trims s (s.sendPosted frag i how)
    unfold Caller.sendPosted
    split
    next => exact Trims.refl s
    have hgone := List.eraseIdx_sublist s.posting i
    dsimp only
    split
    next => exact Trims.of_sublist (List.Sublist.refl _) rfl hgone
    split
    next => exact Trims.of_sublist List.eraseP_sublist rfl hgone
    next => exact Trims.of_sublist (List.Sublist.refl _) rfl hgone
  | tick nowUs how => cases hflush
  | running callId =>
    -- an entry that runs keeps its serial and its queued request
    have hmap : ∀ p : Pending, (if p.callId = callId then
        { p with running := true, deadlineUs := noDeadline } else p).serial = p.serial ∧
          (if p.callId = callId then
            { p with running := true, deadlineUs := noDeadline } else p).queuedReq = p.queuedReq := by
      intro p
      split
      next => exact ⟨rfl, rfl⟩
      next => exact ⟨rfl, rfl⟩
    refine ⟨?_, rfl, fun q hq => ?_, fun _ hx => Or.inl hx⟩
    · have hsame : (s.step frag (.running callId)).pending.map Pending.serial =
          s.pending.map Pending.serial := by
        show (s.pending.map _).map Pending.serial = _
        rw [List.map_map]
        exact List.map_congr_left fun p _ => (hmap p).1
      exact hsame ▸ List.Sublist.refl _
    · obtain ⟨p, hp, rfl⟩ := List.mem_map.mp hq
      exact ⟨p, hp, (hmap p).1.symm, fun hnone => (hmap p).2.trans hnone⟩
  | answered callId => exact Trims.of_sublist List.eraseP_sublist rfl (List.Sublist.refl _)
  | cancel callId cancellable =>
    dsimp only [Caller.step]
    split
    next => exact Trims.refl s
    split
    next => exact Trims.of_sublist List.eraseP_sublist rfl (List.Sublist.refl _)
    split
    next => exact Trims.refl s
    refine ⟨List.Sublist.refl _, rfl, fun q hq => ⟨q, hq, rfl, id⟩, fun x hx => ?_⟩
    rcases List.mem_append.mp hx with hx | hx
    · exact Or.inl hx
    · rw [List.mem_singleton.mp hx]
      exact Or.inr rfl
  | emit p shm cap nowUs => exact Trims.setChan s _
  | nack p m nowUs =>
    dsimp only [Caller.step]
    split
    next => exact Trims.setChan s _
    next => exact Trims.refl s
  | fresh opened => exact Trims.setChan s _

/-- A move of the channel that sends nothing: its log stands, and a lane that comes up joins
past it. -/
structure Quiet (c c' : ReqChannel) : Prop where
  log : SameLog c.req c'.req
  sent : c'.sent = c.sent
  lanes : ∀ q, (c'.lanes q).used = true →
    (c.lanes q).used = true ∧ c'.joined q = c.joined q ∨ c'.joined q = c.req.nextSeqno

theorem Quiet.of_eq {c c' : ReqChannel} (hr : c'.req = c.req) (hs : c'.sent = c.sent)
    (hl : c'.lanes = c.lanes) (hj : c'.joined = c.joined) : Quiet c c' := by
  refine ⟨?_, hs, fun q hq => Or.inl ⟨?_, ?_⟩⟩
  · rw [hr]
    exact ⟨rfl, rfl, rfl, rfl, rfl, rfl, rfl, rfl⟩
  · rw [← hl]
    exact hq
  · rw [hj]

theorem rematch_quiet (c : ReqChannel) (p : Nat) (wuse subReliable : Bool) :
    Quiet c (c.rematch p wuse subReliable) := by
  obtain ⟨c', hc'⟩ : ∃ c', c' = c.rematch p wuse subReliable := ⟨_, rfl⟩
  have hlog : SameLog c.req c'.req := by
    rw [hc']
    unfold ReqChannel.rematch rematchWriter
    cases (c.lanes p).used <;> cases wuse <;> exact ⟨rfl, rfl, rfl, rfl, rfl, rfl, rfl, rfl⟩
  rw [← hc']
  refine ⟨hlog, hc' ▸ (rematch_peers c p wuse subReliable).2.1, fun q hq => ?_⟩
  rw [hc', rematch_used] at hq
  have hjoin : c'.joined q = if wuse && !(c.lanes p).used then
      (if q = p then c.req.nextSeqno else c.joined q) else c.joined q := by
    rw [hc']
    unfold ReqChannel.rematch
    dsimp only
    split <;> rfl
  by_cases hqp : q = p
  · subst hqp
    rw [if_pos rfl] at hq
    cases hused : (c.lanes q).used with
    | true =>
      refine Or.inl ⟨rfl, ?_⟩
      rw [hjoin, hused]
      exact if_neg (by simp)
    | false =>
      refine Or.inr ?_
      rw [hjoin, hused, hq]
      simp
  · rw [if_neg hqp] at hq
    refine Or.inl ⟨hq, ?_⟩
    rw [hjoin, if_neg hqp, ite_self]

theorem removePeer_quiet (c : ReqChannel) (p : Nat) : Quiet c (c.removePeer p) := by
  have h := rematch_quiet c p false false
  exact ⟨h.log, h.sent, h.lanes⟩

/-- A step that flushes: the channel moves, the queue is flushed, and calls are ended. -/
theorem step_flushing (frag : Nat) {s₀ : Caller} {how : Nat → How}
    (h : s.flushing e = some (s₀, how)) : (∃ c, s₀ = { s with chan := c } ∧ Quiet s.chan c) ∧
      (s.step frag e).chan = (s₀.flushQueued frag how).chan ∧
        Trims (s₀.flushQueued frag how) (s.step frag e) := by
  cases e with
  | tick nowUs how' =>
    cases h
    exact ⟨⟨s.chan, rfl, Quiet.of_eq rfl rfl rfl rfl⟩, rfl,
      Trims.of_sublist List.filter_sublist rfl (List.Sublist.refl _)⟩
  | interest id wuse subReliable how' =>
    obtain ⟨p, hp, heq⟩ := Option.map_eq_some_iff.mp h
    cases heq
    have hstep : s.step frag (.interest id wuse subReliable how) =
        Caller.onInterest frag how { s with chan := s.chan.rematch p wuse subReliable } id := by
      dsimp only [Caller.step]
      rw [hp]
    rw [hstep]
    exact ⟨⟨_, rfl, rematch_quiet s.chan p wuse subReliable⟩, rfl,
      Trims.of_sublist List.filter_sublist rfl (List.Sublist.refl _)⟩
  | giveBack id how' =>
    obtain ⟨p, hp, heq⟩ := Option.map_eq_some_iff.mp h
    cases heq
    have hstep : s.step frag (.giveBack id how) =
        Caller.onInterest frag how { s with chan := s.chan.removePeer p } id := by
      dsimp only [Caller.step]
      rw [hp]
    rw [hstep]
    exact ⟨⟨_, rfl, removePeer_quiet s.chan p⟩, rfl,
      Trims.of_sublist List.filter_sublist rfl (List.Sublist.refl _)⟩
  | _ => cases h

theorem base_flushing {s₀ : Caller} {how : Nat → How} (hbase : ChanBase frag s.chan)
    (h : s.flushing e = some (s₀, how)) : ChanBase frag s₀.chan := by
  cases e with
  | tick nowUs how' =>
    cases h
    exact hbase
  | interest id wuse subReliable how' =>
    obtain ⟨p, hp, heq⟩ := Option.map_eq_some_iff.mp h
    cases heq
    exact hbase.rematch (peerSlot_some hp).2.1 wuse subReliable
  | giveBack id how' =>
    obtain ⟨p, hp, heq⟩ := Option.map_eq_some_iff.mp h
    cases heq
    exact hbase.removePeer (peerSlot_some hp).1 (peerSlot_some hp).2.1
  | _ => cases h

/-- A call: nothing, or a new entry that waits, or one whose send is on its way. -/
theorem call_cases (s : Caller) (req : Bytes) (o : Caller.CallOpts) (ok queueOk : Bool) :
    (s.call req o ok queueOk).chan = s.chan ∧ (s.call req o ok queueOk = s ∨
      (s.call req o ok queueOk).calls = s.calls + 1 ∧
        ((s.call req o ok queueOk).pending = s.pending ∧ (s.call req o ok queueOk).posting = s.posting ∨
          ∃ p, p.serial = s.calls ∧ (s.call req o ok queueOk).pending = p :: s.pending ∧
            ((s.call req o ok queueOk).posting = s.posting ∨ p.queuedReq = none ∧
              ∃ x, x.serial = some s.calls ∧ (s.call req o ok queueOk).posting = s.posting ++ [x]))) := by
  unfold Caller.call
  dsimp only
  generalize (if (s.isTask && decide (o.provider = 0)) = true then s.chan.oldestMatch
    else o.provider) = d
  cases ok with
  | false => exact ⟨rfl, Or.inl rfl⟩
  | true =>
    rw [if_neg (by simp)]
    by_cases hwait : if d ≠ 0 then s.chan.peerMatched d = false else s.chan.matchCount = 0
    · rw [if_pos hwait]
      cases queueOk with
      | false => exact ⟨rfl, Or.inr ⟨rfl, Or.inl ⟨rfl, rfl⟩⟩⟩
      | true => exact ⟨rfl, Or.inr ⟨rfl, Or.inr ⟨_, rfl, rfl, Or.inl rfl⟩⟩⟩
    · rw [if_neg hwait]
      exact ⟨rfl, Or.inr ⟨rfl, Or.inr ⟨_, rfl, rfl, Or.inr ⟨rfl, _, rfl, rfl⟩⟩⟩⟩

/-- A step that neither flushes nor sends. -/
theorem step_quiet (hbase : ChanBase frag s.chan) (hflush : s.flushing e = none)
    (hsend : ∀ i how, e ≠ .send i how) :
    ChanBase frag (s.step frag e).chan ∧ Quiet s.chan (s.step frag e).chan := by
  have hself : ChanBase frag s.chan ∧ Quiet s.chan s.chan := ⟨hbase, Quiet.of_eq rfl rfl rfl rfl⟩
  -- a lane that sends or hears stays the lane it is
  have hside : ∀ p x got, x.w.used = (s.chan.lanes p).used →
      Quiet s.chan { s.chan.setSide p x with got := got } := by
    intro p x got hused
    refine ⟨⟨rfl, rfl, rfl, rfl, rfl, rfl, rfl, rfl⟩, rfl, fun q hq => Or.inl ⟨?_, rfl⟩⟩
    have hq : (if q = p then x.w else s.chan.lanes q).used = true := hq
    split at hq
    next heq =>
      rw [heq, ← hused]
      exact hq
    next => exact hq
  cases e with
  | peerAdd id =>
    show ChanBase frag (if id = 0 then s else _).chan ∧ Quiet s.chan (if id = 0 then s else _).chan
    split
    next => exact hself
    next hid => exact ⟨hbase.peerAdd hid, Quiet.of_eq rfl rfl rfl rfl⟩
  | drop id => exact ⟨hbase.setDormant id true, Quiet.of_eq rfl rfl rfl rfl⟩
  | resume id => exact ⟨hbase.setDormant id false, Quiet.of_eq rfl rfl rfl rfl⟩
  | gone id =>
    dsimp only [Caller.step]
    split
    next => exact hself
    next p hp =>
      obtain ⟨hlt, hused, -⟩ := peerSlot_some hp
      have hmove := And.intro (hbase.removePeer hlt hused) (removePeer_quiet s.chan p)
      split
      next => exact hmove
      next => exact hmove
  | giveBack id how =>
    have hnone : peerSlot s.chan.peers id = none := Option.map_eq_none_iff.mp hflush
    dsimp only [Caller.step]
    rw [hnone]
    exact hself
  | interest id wuse subReliable how =>
    have hnone : peerSlot s.chan.peers id = none := Option.map_eq_none_iff.mp hflush
    dsimp only [Caller.step]
    rw [hnone]
    exact hself
  | formed id subReliable =>
    dsimp only [Caller.step]
    split
    next => exact hself
    next p hp => exact ⟨hbase.rematch (peerSlot_some hp).2.1 true subReliable, rematch_quiet _ _ _ _⟩
  | call req o ok queueOk =>
    have hsame := (call_cases s req o ok queueOk).1
    show ChanBase frag (s.call req o ok queueOk).chan ∧ Quiet s.chan (s.call req o ok queueOk).chan
    rw [hsame]
    exact hself
  | send i how => exact absurd rfl (hsend i how)
  | tick nowUs how => cases hflush
  | running callId => exact hself
  | answered callId => exact hself
  | cancel callId cancellable =>
    dsimp only [Caller.step]
    split
    next => exact hself
    split
    next => exact hself
    next => split <;> exact hself
  | emit p shm cap nowUs =>
    exact ⟨hbase.emit p shm cap nowUs _ _, hside p _ _ (emit_used s.chan p shm cap nowUs _)⟩
  | nack p m nowUs =>
    dsimp only [Caller.step]
    split
    next hm =>
      exact ⟨hbase.nack nowUs hm,
        hside p _ s.chan.got (matched_used (writerNack_matched _ _ (s.chan.side p) _ _))⟩
    next => exact hself
  | fresh opened =>
    refine ⟨hbase.fresh _ _, ⟨rfl, rfl, rfl, rfl, rfl, rfl, rfl, rfl⟩, rfl, fun q hq => ?_⟩
    exact Or.inl ⟨hq, rfl⟩

/-- What a send outside the lock does to the channel. -/
theorem sendPosted_chan (frag : Nat) (s : Caller) (i : Nat) (how : How) :
    (s.sendPosted frag i how).chan = s.chan ∨ ∃ x c', s.posting[i]? = some x ∧
      s.chan.post frag x how = some c' ∧ (s.sendPosted frag i how).chan = c' := by
  unfold Caller.sendPosted
  cases hx : s.posting[i]? with
  | none => exact Or.inl rfl
  | some x =>
    dsimp only
    cases hpost : s.chan.post frag x how with
    | none =>
      dsimp only
      split <;> exact Or.inl rfl
    | some c' => exact Or.inr ⟨x, c', rfl, hpost, rfl⟩

/-- Every step keeps the channel's invariant. -/
theorem ChanBase.step (hF : 0 < frag) (hF' : frag ≤ 65535) (hbase : ChanBase frag s.chan)
    (hs : Sorted s.pending) (e : CallerEvent) : ChanBase frag (s.step frag e).chan := by
  cases hflush : s.flushing e with
  | some x =>
    obtain ⟨s₀, how⟩ := x
    obtain ⟨⟨c, hform, -⟩, hchan, -⟩ := step_flushing frag hflush
    rw [hchan]
    have hs : Sorted s₀.pending := by
      rw [hform]
      exact hs
    exact (flushQueued_spec hF hF' how (base_flushing hbase hflush) hs).1.base
  | none =>
    by_cases hsend : ∃ i how, e = .send i how
    · obtain ⟨i, how, rfl⟩ := hsend
      show ChanBase frag (s.sendPosted frag i how).chan
      rcases sendPosted_chan frag s i how with hsame | ⟨x, c', -, hpost, hchan⟩
      · rw [hsame]
        exact hbase
      · rw [hchan]
        exact (hbase.post hF hF' hpost).1
    · exact (step_quiet hbase hflush fun i how heq => hsend ⟨i, how, heq⟩).1


/-- Every step but a call. -/
theorem Trims.step (hF : 0 < frag) (hF' : frag ≤ 65535) (hbase : ChanBase frag s.chan)
    (hs : Sorted s.pending) (hcall : ∀ req o ok queueOk, e ≠ .call req o ok queueOk) :
    Trims s (s.step frag e) := by
  cases hflush : s.flushing e with
  | none => exact step_trims frag hflush hcall
  | some x =>
    obtain ⟨s₀, how⟩ := x
    obtain ⟨⟨c, hform, -⟩, -, ht⟩ := step_flushing frag hflush
    have hs : Sorted s₀.pending := by
      rw [hform]
      exact hs
    have hmove : Trims s s₀ := hform ▸ Trims.setChan s c
    have hflushed := (flushQueued_spec hF hF' how (base_flushing hbase hflush) hs).1
    exact (hmove.trans hflushed.trims).trans ht

end Rant.Patterns
