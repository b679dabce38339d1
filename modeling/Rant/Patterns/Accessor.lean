import Mathlib.Data.List.Chain
import Rant.Patterns.Owner
/-!
# An accessor and the definitions it follows

A slot's value channel through any number of definitions, one after another, and one accessor
that is handed the samples in the order they were published. A definition may be retired at
any time and another opened on the slot; the seqno line continues, and the new definition's
`write_seq` is seeded from it. PEER_INTEREST events reach the accessor at any time, or not at
all.

Two counters run beside each other. `write_seq` counts the writes, published or not, and the
slot's seqno counts the fragments of what was published. Within a definition the accessor
compares counts of one kind; a successor's count goes on from the other. Counted without a
bound, a write has a number: the slot's seqno when its definition opened, plus which of its
writes it is. Its `write_seq` is that number on 32 bits (`Numbered`). The slot's seqno is the
number it had at the opening plus the fragments of what the definition published
(`channelSend_seqno`), so the numbers of two definitions can be compared through the samples
of the first (`LineInv`).

The accessor takes a sample unless its number is behind the cached one's. Within a definition
the numbers go up when sends keep the order of the writes. Across definitions they do when the
predecessor published as many fragments as it counted writes up to its last sample, or its
successor counts the rest before it publishes (`InLine`, `accessor_converges`): so it is when
every write was published (`past_of_published`). It need not be: writes that were never
published may leave the successor behind (`stranded_accessor`).
-/

namespace Rant.Patterns

open Rant.Lib
open Rant.Transport

/-! ## The system -/

/-- The slot and its follower. `base` is the slot's seqno when the definition opened, `pred`
what the last definition before it that published anything published, newest first. `newest` is
the last sample published on the slot and `flight` those on their way, under their numbers. -/
structure Line where
  owner : Owner
  base : Nat
  pred : List Shown
  newest : Option (Nat × Shown)
  flight : List (Nat × Shown)
  acc : Variable

/-- The slot after its first definition opened, and an accessor that has seen nothing. -/
def Line.init (t : Topic) (o : VarOpts) (acc : Variable) : Line where
  owner := Owner.opened t o false 0
  base := t.nextSeqno
  pred := []
  newest := none
  flight := []
  acc := { acc with hasValue := false }

/-- What may happen. -/
inductive LineEvent
  | owner (e : OwnerEvent)
  /-- `rant_variable_retire`, then a definition on the slot again. -/
  | reopen (o : VarOpts) (changed : Bool) (version : Nat)
  /-- The accessor is handed the next sample; `ok` is its allocator's answer. -/
  | deliver (ok : Bool) (recvUs writtenUs schema : Nat)
  /-- A PEER_INTEREST event finds `matched` owners of the channel. -/
  | interest (matched : Nat)

/-- The samples of a definition opened at `base`, under their numbers. -/
def numbered (base : Nat) (l : List Shown) : List (Nat × Shown) :=
  l.map fun x => (base + x.serial, x)

/-- The sample as it is handed over by peer `peer`. -/
def Shown.msg (x : Shown) (peer recvUs writtenUs schema : Nat) : Msg where
  header := x.header
  data := x.data
  publisherId := peer
  recvUs := recvUs
  writtenUs := writtenUs
  schema := schema

/-- One step, on a node of fragment size `frag` that the accessor knows as `peer`. -/
def Line.step (frag peer : Nat) (s : Line) : LineEvent → Line
  | .owner e =>
    let owner := s.owner.step frag e
    -- what the step published, if anything
    let new := numbered s.base (owner.shown.take (owner.shown.length - s.owner.shown.length))
    { s with owner := owner, newest := new.head?.or s.newest, flight := s.flight ++ new }
  | .reopen o changed version =>
    let t := s.owner.chan.park.release
    { s with
      owner := Owner.opened t o changed version
      base := t.nextSeqno
      pred := if s.owner.shown = [] then s.pred else s.owner.shown }
  | .deliver ok recvUs writtenUs schema =>
    match s.flight with
    | [] => s
    | x :: rest =>
      { s with
        flight := rest
        acc := (s.acc.onValue (x.2.msg peer recvUs writtenUs schema) ok).1 }
  | .interest matched =>
    if s.acc.lastSource ≠ 0 ∧ matched = 0 then { s with acc := s.acc.disarm } else s

/-- Handed everything, the accessor holds the last sample published: its value, and its
prefix, so the forced flag and `write_seq`. -/
def Converged (s : Line) : Prop :=
  s.flight = [] → ∀ x, s.newest = some x → s.acc.hdr = x.2.header ∧ s.acc.store = x.2.data

/-- `write_seq` `b` orders after `a`, by signed distance. -/
def After (a b : Nat) : Prop := a ≠ b ∧ Variable.behind a b = false

/-- The first `write_seq` the definition published orders after every one of its
predecessor's. -/
def Succeeds (s : Line) : Prop :=
  ∀ x, s.owner.shown.getLast? = some x → ∀ p ∈ s.pred, ∀ a b,
    readLe p.header 1 4 = some a → readLe x.header 1 4 = some b → After a b

/-! ## A successor that starts behind -/

/-- A set whose observer sets, and whose observer sets again: three writes, one sample. Then
the definition goes and comes back, and is set once. -/
def strandedRun : List LineEvent :=
  [.owner (.set 0 [1] 0 0 true), .owner (.set 1 [2] 0 0 true), .owner (.set 2 [3] 0 0 true),
    .owner (.observed 2), .owner (.send 2 0 (.inline {})), .owner (.observed 1),
    .owner (.observed 0), .deliver true 0 0 0,
    .reopen ⟨[97], 0, 0, false, false, 0⟩ false 0, .owner (.set 0 [4] 0 0 true),
    .owner (.observed 0), .owner (.send 0 0 (.inline {})), .deliver true 0 0 0]

/-- The slot of `strandedRun`. -/
def plainLine : Line :=
  Line.init .undefined ⟨[97], 0, 0, false, false, 0⟩
    { isOwner := false, allowForce := false }

/-- The successor's first write counts 2, the accessor holds 3, and drops it for good. -/
theorem stranded_accessor :
    ¬ (Converged (run (Line.step 1350 7) plainLine strandedRun) ∧
      Succeeds (run (Line.step 1350 7) plainLine strandedRun)) := by
  intro h
  obtain ⟨n, hn⟩ : ∃ x, (run (Line.step 1350 7) plainLine strandedRun).newest = some x ∧
      x.2.data = [4] := by
    refine ⟨((run (Line.step 1350 7) plainLine strandedRun).newest).get (by decide +kernel), ?_, ?_⟩
    · exact (Option.some_get _).symm
    · decide +kernel
  have hflight : (run (Line.step 1350 7) plainLine strandedRun).flight = [] := by decide +kernel
  have hstore := (h.1 hflight n hn.1).2
  have hheld : (run (Line.step 1350 7) plainLine strandedRun).acc.store = [3] := by decide +kernel
  rw [hheld, hn.2] at hstore
  cases hstore

/-! ## When the line holds -/

/-- The write a step would publish, and what it would send. -/
def Owner.publishing (s : Owner) : OwnerEvent → Option (Nat × Bytes × Bytes × Nat × Via)
  | .send w sourceUs via =>
    match s.sets w with
    | .ready serial header val => some (serial, header, val, sourceUs, via)
    | _ => none
  | e =>
    match s.lockedWrite e with
    | some (r, sourceUs, via) =>
      match r.2.head? with
      | some (.publish header data) => some (s.serial + 1, header, data, sourceUs, via)
      | _ => none
    | none => none

/-- `n` is past `m`, by less than half the circle. -/
abbrev Ahead (m n : Nat) : Prop := m ≤ n ∧ n < m + 2 ^ 31

/-- And strictly so. -/
abbrev Past (m n : Nat) : Prop := m < n ∧ n < m + 2 ^ 31

/-- The seqnos that samples took: one a fragment. -/
def fragments (frag : Nat) (l : List Shown) : Nat :=
  (l.map fun x => fragCount frag x.wire.length).sum

/-- What the step publishes is no earlier write than the definition's last sample carries. Where
the definition has no sample yet, the fragments its predecessor published and its own writes up
to this one are more than the writes its predecessor had counted at any of its samples. Neither
distance reaches half the circle, and the accessor can store what it is given. -/
def InLine (frag : Nat) (s : Line) : LineEvent → Prop
  | .owner e => ∀ serial header data sourceUs via,
      s.owner.publishing e = some (serial, header, data, sourceUs, via) →
      (∃ t, channelSend frag s.owner.chan header data sourceUs via = .committed t) →
        (∀ x, s.owner.shown.head? = some x → Ahead x.serial serial) ∧
        (s.owner.shown = [] → ∀ p ∈ s.pred, Past p.serial (fragments frag s.pred + serial))
  | .deliver ok _ _ _ => ok = true
  | _ => True

/-- A sample has a fragment at least. -/
theorem length_le_fragments (frag : Nat) (l : List Shown) : l.length ≤ fragments frag l := by
  unfold fragments
  induction l with
  | nil => exact Nat.le_refl 0
  | cons x l ih =>
    have hpos : 0 < fragCount frag x.wire.length := by
      unfold fragCount
      dsimp only
      split <;> omega
    rw [List.map_cons, List.sum_cons, List.length_cons]
    omega

/-- A predecessor that published every write up to its last sample leaves the successor past
it. -/
theorem past_of_published {frag serial : Nat} {l : List Shown}
    (h : ∀ p ∈ l, p.serial ≤ l.length) (hpos : 0 < serial)
    (hfit : fragments frag l + serial < 2 ^ 31) :
    ∀ p ∈ l, Past p.serial (fragments frag l + serial) := by
  intro p hp
  have hle := h p hp
  have hfrag := length_le_fragments frag l
  exact ⟨by omega, by omega⟩

/-- Less than half the circle ahead is not behind. -/
theorem behind_of_ahead {m n : Nat} (h : Ahead m n) :
    Variable.behind (m % 2 ^ 32) (n % 2 ^ 32) = false := by
  unfold Variable.behind
  refine decide_eq_false ?_
  obtain ⟨h1, h2⟩ := h
  omega

/-! ### Numbers -/

/-- A prefix that carries the `write_seq` of number `n`. -/
def Header (n : Nat) (h : Bytes) : Prop := ∃ v : Variable, h = v.hdr ∧ v.writeSeq = n % 2 ^ 32

theorem Header.read {n : Nat} {h : Bytes} (hh : Header n h) :
    readLe h 1 4 = some (n % 2 ^ 32) := by
  obtain ⟨v, rfl, hv⟩ := hh
  rw [← hv]
  exact Variable.readLe_hdr v (by rw [hv]; exact Nat.mod_lt _ (by decide))

/-- The prefix a call holds carries its write's number. -/
def SetCall.Numbered (base : Nat) : SetCall → Prop
  | .idle => True
  | .notifying serial _ header _ => Header (base + serial) header
  | .ready serial header _ => Header (base + serial) header

/-- Every prefix in sight carries its write's number, from `base` on, and the slot's seqno is
`base` and the fragments of what was published since. -/
structure Numbered (frag base : Nat) (s : Owner) : Prop where
  seqno : s.chan.nextSeqno = base + fragments frag s.shown
  seq : s.v.writeSeq = (base + s.serial) % 2 ^ 32
  calls : ∀ w, (s.sets w).Numbered base
  shown : ∀ x ∈ s.shown, Header (base + x.serial) x.header

variable {frag base : Nat} {s : Owner}

theorem Numbered.header (h : Numbered frag base s) : Header (base + s.serial) s.v.hdr :=
  ⟨s.v, rfl, h.seq⟩

theorem Numbered.call (h : Numbered frag base s) (w : Nat) {x : SetCall} (hx : x.Numbered base) :
    Numbered frag base (s.call w x) where
  seqno := h.seqno
  seq := h.seq
  calls i := by
    show (if i = w then x else s.sets i).Numbered base
    split
    next => exact hx
    next => exact h.calls i
  shown := h.shown

theorem Numbered.same (h : Numbered frag base s) {v : Variable} (hv : v.writeSeq = s.v.writeSeq) :
    Numbered frag base { s with v := v } :=
  ⟨h.seqno, hv.trans h.seq, h.calls, h.shown⟩

/-- One more write. -/
theorem Numbered.next (h : Numbered frag base s) {v : Variable}
    (hv : v.writeSeq = Variable.bump s.v.writeSeq) :
    Numbered frag base { s with v := v, serial := s.serial + 1 } := by
  refine ⟨h.seqno, ?_, h.calls, h.shown⟩
  show v.writeSeq = (base + (s.serial + 1)) % 2 ^ 32
  rw [hv, h.seq]
  unfold Variable.bump
  omega

/-- What a step did to the samples on show. -/
def Published (frag : Nat) (s : Owner) (e : OwnerEvent) (s' : Owner) : Prop :=
  s'.shown = s.shown ∨ ∃ serial header data sourceUs via wire,
    s.publishing e = some (serial, header, data, sourceUs, via) ∧
    (∃ t, channelSend frag s.chan header data sourceUs via = .committed t) ∧
    s'.shown = ⟨serial, header, data, wire⟩ :: s.shown

/-- A send under its write's number. -/
theorem post_numbered (h : Numbered frag base s) {serial : Nat} {header data : Bytes}
    (hh : Header (base + serial) header) (sourceUs : Nat) (via : Via) {s' : Owner}
    (hpost : s.post frag serial header data sourceUs via = some s') :
    Numbered frag base s' ∧ (s'.shown = s.shown ∨
      ((∃ t, channelSend frag s.chan header data sourceUs via = .committed t) ∧
        ∃ wire, s'.shown = ⟨serial, header, data, wire⟩ :: s.shown)) := by
  unfold Owner.post at hpost
  split at hpost
  next t hsend =>
    rw [← Option.some.inj hpost]
    refine ⟨⟨?_, h.seq, h.calls, fun x hx => ?_⟩, Or.inr ⟨⟨t, hsend⟩, _, rfl⟩⟩
    · -- the seal moves the seqno by the sample's fragments
      rw [fragments, List.map_cons, List.sum_cons]
      dsimp only
      rw [channelSend_seqno hsend, h.seqno, fragments]
      omega
    · rcases List.mem_cons.mp hx with rfl | hx
      · exact hh
      · exact h.shown x hx
  next =>
    rw [← Option.some.inj hpost]
    exact ⟨h, Or.inl rfl⟩
  next => cases hpost

/-- A locked write that publishes is about to. -/
theorem publishing_locked {e : OwnerEvent} {r : Variable × List Act} {sourceUs : Nat} {via : Via}
    (hl : s.lockedWrite e = some (r, sourceUs, via)) {header data : Bytes} {rest : List Act}
    (hr : r.2 = .publish header data :: rest) :
    s.publishing e = some (s.serial + 1, header, data, sourceUs, via) := by
  cases e with
  | set => cases hl
  | observed => cases hl
  | send => cases hl
  | observe => cases hl
  | lanes => cases hl
  | _ =>
    unfold Owner.publishing
    dsimp only
    rw [hl]
    dsimp only
    rw [hr]
    rfl

/-- A locked write. -/
theorem locked_numbered (h : Numbered frag base s) {e : OwnerEvent} {r : Variable × List Act}
    {sourceUs : Nat} {via : Via} (hl : s.lockedWrite e = some (r, sourceUs, via)) :
    Numbered frag base (s.locked frag r sourceUs via) ∧
      Published frag s e (s.locked frag r sourceUs via) := by
  rcases lockedWrite_locked hl with ⟨hseq, rest, hacts⟩ | ⟨hshown, hacts⟩
  · obtain ⟨s1, hs1⟩ : ∃ s1 : Owner, s1 = { s with v := r.1, serial := s.serial + 1 } := ⟨_, rfl⟩
    have hn1 : Numbered frag base s1 := by
      rw [hs1]
      exact h.next hseq
    have hh1 : Header (base + (s.serial + 1)) r.1.hdr := by
      have := hn1.header
      rw [hs1] at this
      exact this
    have hlocked : s.locked frag r sourceUs via =
        (s1.post frag (s.serial + 1) r.1.hdr r.1.store sourceUs via).getD s1 := by
      unfold Owner.locked
      rw [hacts, hs1]
      rfl
    rw [hlocked]
    cases hpost : s1.post frag (s.serial + 1) r.1.hdr r.1.store sourceUs via with
    | none =>
      refine ⟨hn1, Or.inl ?_⟩
      rw [hs1]
      rfl
    | some s' =>
      obtain ⟨hn, hout⟩ := post_numbered hn1 hh1 sourceUs via hpost
      rw [hs1] at hout
      refine ⟨hn, hout.imp id ?_⟩
      rintro ⟨hcommit, wire, hshown⟩
      exact ⟨_, _, _, _, _, wire, publishing_locked hl hacts, hcommit, hshown⟩
  · have hlocked : s.locked frag r sourceUs via = { s with v := r.1 } := by
      unfold Owner.locked
      rw [hacts]
      rfl
    rw [hlocked]
    exact ⟨h.same (Variable.shown_seq hshown), Or.inl rfl⟩

/-- One step of the owner keeps the numbers, and publishes what it was about to. -/
theorem step_numbered (h : Numbered frag base s) (e : OwnerEvent) :
    Numbered frag base (s.step frag e) ∧ Published frag s e (s.step frag e) := by
  cases e with
  | set w val nowUs wallUs ok =>
    unfold Owner.step
    dsimp only
    split
    next hidle =>
      obtain ⟨r, hr⟩ : ∃ r, r = s.v.setStart val nowUs wallUs ok := ⟨_, rfl⟩
      have hspec := Variable.setStart_spec s.v val nowUs wallUs ok
      rw [← hr] at hspec ⊢
      rcases hspec with ⟨hshown, habs | hoom⟩ | ⟨hseq, -, acts, hst⟩
      · rw [habs]
        exact ⟨h.same (Variable.shown_seq hshown), Or.inl rfl⟩
      · rw [hoom]
        exact ⟨⟨h.seqno, h.seq, h.calls, h.shown⟩, Or.inl rfl⟩
      · rw [hst]
        have hn := h.next hseq
        exact ⟨hn.call w hn.header, Or.inl rfl⟩
    next => exact ⟨h, Or.inl rfl⟩
  | observed w =>
    unfold Owner.step
    dsimp only
    split
    next serial seq header val hw =>
      have hcall := h.calls w
      rw [hw] at hcall
      refine ⟨h.call w ?_, Or.inl rfl⟩
      split
      next => exact hcall
      next => trivial
    next => exact ⟨h, Or.inl rfl⟩
  | send w sourceUs via =>
    unfold Owner.step
    dsimp only
    split
    next serial header val hw =>
      have hcall := h.calls w
      rw [hw] at hcall
      have hpub : s.publishing (.send w sourceUs via) = some (serial, header, val, sourceUs, via) := by
        unfold Owner.publishing
        dsimp only
        rw [hw]
      split
      next s' hpost =>
        obtain ⟨hn, hout⟩ := post_numbered h hcall sourceUs via hpost
        refine ⟨hn.call w trivial, hout.imp id ?_⟩
        rintro ⟨hcommit, wire, hshown⟩
        exact ⟨_, _, _, _, _, wire, hpub, hcommit, hshown⟩
      next =>
        have hfail : Numbered frag base { s with failed := true } := ⟨h.seqno, h.seq, h.calls, h.shown⟩
        exact ⟨hfail.call w trivial, Or.inl rfl⟩
    next => exact ⟨h, Or.inl rfl⟩
  | remote m okShadow ok u d => exact locked_numbered h rfl
  | force val nowUs wallUs okShadow ok u d => exact locked_numbered h rfl
  | unforce nowUs wallUs ok u d => exact locked_numbered h rfl
  | observe onWrite onChange => exact ⟨⟨h.seqno, h.seq, h.calls, h.shown⟩, Or.inl rfl⟩
  | lanes matched => exact ⟨⟨h.seqno, h.seq, h.calls, h.shown⟩, Or.inl rfl⟩

/-! ### The invariant -/

/-- A sample follows another on the line. -/
def Follows (x y : Nat × Shown) : Prop := Ahead x.1 y.1

/-- What the accessor holds of the line: nothing yet, or its last sample. -/
def Held (acc : Variable) : Option (Nat × Shown) → Prop
  | none => acc.hasValue = false
  | some x => acc.hdr = x.2.header ∧ acc.store = x.2.data ∧ acc.writeSeq = x.1 % 2 ^ 32

/-- The samples from the one the accessor holds on to the newest, each following the last. -/
structure Feed (s : Line) (held : Option (Nat × Shown)) : Prop where
  holds : Held s.acc held
  chain : List.IsChain Follows (held.toList ++ s.flight)
  newest : s.newest = (held.toList ++ s.flight).getLast?
  headers : ∀ x ∈ s.flight, Header x.1 x.2.header

/-- The invariant, the last definition before this one that published anything opened at `b`:
the slot's seqno went from there to `base` by the fragments of its samples, so its numbers and
this definition's lie on one line. -/
structure LineInv (frag b : Nat) (s : Line) : Prop where
  owner : Numbered frag s.base s.owner
  base : s.base = b + fragments frag s.pred
  pred : ∀ p ∈ s.pred, Header (b + p.serial) p.header
  first : ∀ x, s.owner.shown.getLast? = some x → ∀ p ∈ s.pred,
    Past (b + p.serial) (s.base + x.serial)
  newest : s.newest = (numbered s.base s.owner.shown).head?.or (numbered b s.pred).head?
  feed : ∃ held, Feed s held

variable {l : Line} {peer b : Nat}

/-- A sample that is not behind is taken. -/
theorem onValue_held {acc : Variable} {held : Option (Nat × Shown)} (hheld : Held acc held)
    {x : Nat × Shown} (hx : Header x.1 x.2.header) (hfollow : ∀ y, held = some y → Follows y x)
    (recvUs writtenUs schema : Nat) :
    Held (acc.onValue (x.2.msg peer recvUs writtenUs schema) true).1 (some x) := by
  obtain ⟨v, hv, hseq⟩ := hx
  obtain ⟨w, hw⟩ : ∃ w : Variable, w = { v with store := x.2.data } := ⟨_, rfl⟩
  have hwh : w.hdr = v.hdr := by
    rw [hw]
    rfl
  have hws : w.writeSeq = x.1 % 2 ^ 32 := by
    rw [hw]
    exact hseq
  have hwd : w.store = x.2.data := by rw [hw]
  have hlt : w.writeSeq < 2 ^ 32 := by
    rw [hws]
    exact Nat.mod_lt _ (by decide)
  have hshown := Variable.onValue_shown (v := w) (a := acc)
    (m := x.2.msg peer recvUs writtenUs schema) hlt (hv.trans hwh.symm) hwd.symm ?_
  · refine ⟨?_, ?_, ?_⟩
    · rw [Variable.shown_hdr hshown, hwh, hv]
    · rw [Variable.shown_store hshown, hwd]
    · rw [Variable.shown_seq hshown, hws]
  · rintro ⟨hval, -, hbehind⟩
    cases held with
    | none =>
      have hno : acc.hasValue = false := hheld
      rw [hno] at hval
      cases hval
    | some y =>
      rw [hheld.2.2, hws, behind_of_ahead (hfollow y rfl)] at hbehind
      cases hbehind

/-- The accessor moved, its value and count as they were. -/
theorem Held.same {acc acc' : Variable} {held : Option (Nat × Shown)} (h : Held acc held)
    (hv : acc'.hasValue = acc.hasValue) (hs : acc'.shown = acc.shown) : Held acc' held := by
  cases held with
  | none => exact hv.trans h
  | some x =>
    obtain ⟨h1, h2, h3⟩ := h
    exact ⟨(Variable.shown_hdr hs).trans h1, (Variable.shown_store hs).trans h2,
      (Variable.shown_seq hs).trans h3⟩

/-- One more sample goes out, in line. -/
theorem LineInv.publish (h : LineInv frag b l) {owner : Owner} (hn : Numbered frag l.base owner)
    {x : Shown} (hshown : owner.shown = x :: l.owner.shown)
    (hahead : ∀ y, l.owner.shown.head? = some y → Ahead y.serial x.serial)
    (hpast : l.owner.shown = [] → ∀ p ∈ l.pred, Past p.serial (fragments frag l.pred + x.serial)) :
    LineInv frag b { l with
      owner := owner, newest := some (l.base + x.serial, x)
      flight := l.flight ++ [(l.base + x.serial, x)] } := by
  obtain ⟨held, hheld, hchain, hlast, hheaders⟩ := h.feed
  have hbase := h.base
  -- on the slot's line the predecessor's samples lie below the first of this definition
  have hfirst : l.owner.shown = [] → ∀ p ∈ l.pred, Past (b + p.serial) (l.base + x.serial) := by
    intro hnone p hp
    obtain ⟨h1, h2⟩ := hpast hnone p hp
    exact ⟨by omega, by omega⟩
  have hnewest : ∀ y, l.newest = some y → Ahead y.1 (l.base + x.serial) := by
    intro y hy
    rw [h.newest] at hy
    cases hold : l.owner.shown with
    | nil =>
      rw [hold] at hy
      obtain ⟨p, hp, rfl⟩ := List.mem_map.mp (List.mem_of_head? hy)
      obtain ⟨h1, h2⟩ := hfirst hold p hp
      exact ⟨Nat.le_of_lt h1, h2⟩
    | cons z zs =>
      rw [hold] at hy
      obtain rfl := Option.some.inj hy
      obtain ⟨h1, h2⟩ := hahead z (by rw [hold]; rfl)
      exact ⟨Nat.add_le_add_left h1 _, by dsimp only; omega⟩
  refine ⟨hn, hbase, h.pred, ?_, ?_, held, hheld, ?_, ?_, ?_⟩
  · intro y hy p hp
    have hy : (x :: l.owner.shown).getLast? = some y := by
      rw [← hshown]
      exact hy
    cases hold : l.owner.shown with
    | nil =>
      rw [hold] at hy
      rw [← Option.some.inj hy]
      exact hfirst hold p hp
    | cons z zs =>
      rw [hold, List.getLast?_cons_cons] at hy
      refine h.first y ?_ p hp
      rw [hold]
      exact hy
  · show some (l.base + x.serial, x) = (numbered l.base owner.shown).head?.or _
    rw [hshown]
    rfl
  · show List.IsChain Follows (held.toList ++ (l.flight ++ [(l.base + x.serial, x)]))
    rw [← List.append_assoc]
    refine List.isChain_append.mpr ⟨hchain, List.isChain_singleton _, fun y hy z hz => ?_⟩
    rw [← Option.some.inj hz]
    exact hnewest y (hlast.trans hy)
  · show some (l.base + x.serial, x) = (held.toList ++ (l.flight ++ [_])).getLast?
    rw [← List.append_assoc, List.getLast?_concat]
  · intro y hy
    rcases List.mem_append.mp hy with hy | hy
    · exact hheaders y hy
    · rw [List.mem_singleton.mp hy]
      refine hn.shown x ?_
      rw [hshown]
      exact List.mem_cons_self

/-- The owner moved and published nothing. -/
theorem LineInv.quiet (h : LineInv frag b l) {owner : Owner} (hn : Numbered frag l.base owner)
    (hshown : owner.shown = l.owner.shown) : LineInv frag b { l with owner := owner } := by
  refine ⟨hn, h.base, h.pred, ?_, ?_, h.feed.imp fun held hf => ⟨hf.1, hf.2, hf.3, hf.4⟩⟩
  · dsimp only
    rw [hshown]
    exact h.first
  · dsimp only
    rw [hshown]
    exact h.newest

/-- A definition goes and another opens. One that published nothing left the seqno where it
was, so the samples before it stay the ones to compare with. -/
theorem LineInv.reopen (h : LineInv frag b l) (o : VarOpts) (changed : Bool) (version : Nat) :
    ∃ b', LineInv frag b' (l.step frag peer (.reopen o changed version)) := by
  have hn : Numbered frag l.owner.chan.nextSeqno
      (Owner.opened l.owner.chan.park.release o changed version) :=
    ⟨rfl, rfl, fun _ => trivial, fun x hx => absurd hx List.not_mem_nil⟩
  have hfeed : ∃ held, Feed (l.step frag peer (.reopen o changed version)) held :=
    h.feed.imp fun held hf => ⟨hf.1, hf.2, hf.3, hf.4⟩
  have hseqno := h.owner.seqno
  have hnewest := h.newest
  by_cases hnone : l.owner.shown = []
  · have hstep : (l.step frag peer (.reopen o changed version)).pred = l.pred := if_pos hnone
    rw [hnone] at hseqno hnewest
    exact ⟨b, hn, hseqno.trans (h.base.trans (by rw [hstep])), by rw [hstep]; exact h.pred,
      fun x hx => (by cases hx), by rw [hstep]; exact hnewest, hfeed⟩
  · have hstep : (l.step frag peer (.reopen o changed version)).pred = l.owner.shown :=
      if_neg hnone
    refine ⟨l.base, hn, by rw [hstep]; exact hseqno, by rw [hstep]; exact h.owner.shown,
      fun x hx => (by cases hx), ?_, hfeed⟩
    rw [hstep]
    obtain ⟨x, xs, hx⟩ := List.exists_cons_of_ne_nil hnone
    rw [hx] at hnewest ⊢
    exact hnewest

/-- One step keeps the invariant, in line. -/
theorem step_line (frag peer : Nat) (l : Line) (e : LineEvent) (h : ∃ b, LineInv frag b l)
    (hi : InLine frag l e) : ∃ b, LineInv frag b (l.step frag peer e) := by
  obtain ⟨b, h⟩ := h
  cases e with
  | owner e =>
    obtain ⟨owner, howner⟩ : ∃ owner, owner = l.owner.step frag e := ⟨_, rfl⟩
    obtain ⟨hn, hout⟩ : Numbered frag l.base owner ∧ Published frag l.owner e owner := by
      rw [howner]
      exact step_numbered h.owner e
    unfold Line.step
    dsimp only
    rw [← howner]
    rcases hout with hshown | ⟨serial, header, data, sourceUs, via, wire, hpub, hcommit, hshown⟩
    · have hnone : owner.shown.take (owner.shown.length - l.owner.shown.length) = [] := by
        rw [hshown, Nat.sub_self]
        rfl
      rw [hnone, show numbered l.base [] = [] from rfl, List.append_nil]
      exact ⟨b, h.quiet hn hshown⟩
    · have hone : owner.shown.take (owner.shown.length - l.owner.shown.length) =
          [⟨serial, header, data, wire⟩] := by
        rw [hshown, List.length_cons, Nat.add_sub_cancel_left]
        rfl
      obtain ⟨hahead, hpast⟩ := hi serial header data sourceUs via hpub hcommit
      rw [hone]
      exact ⟨b, h.publish hn hshown hahead hpast⟩
  | reopen o changed version => exact h.reopen o changed version
  | deliver ok recvUs writtenUs schema =>
    have hok : ok = true := hi
    obtain ⟨held, hheld, hchain, hlast, hheaders⟩ := h.feed
    unfold Line.step
    dsimp only
    split
    next => exact ⟨b, h⟩
    next x rest hflight =>
      rw [hflight] at hchain hlast hheaders
      have hx := hheaders x List.mem_cons_self
      have hfollow : ∀ y, held = some y → Follows y x := by
        intro y hy
        rw [hy] at hchain
        exact (List.isChain_cons_cons.mp hchain).1
      refine ⟨b, h.owner, h.base, h.pred, h.first, h.newest, some x, ?_, ?_, ?_, ?_⟩
      · rw [hok]
        exact onValue_held hheld hx hfollow recvUs writtenUs schema
      · exact hchain.right_of_append
      · rw [List.getLast?_append] at hlast
        show l.newest = (x :: rest).getLast?
        rw [hlast, List.getLast?_eq_some_getLast (List.cons_ne_nil x rest), Option.some_or]
      · exact fun y hy => hheaders y (List.mem_cons_of_mem _ hy)
  | interest matched =>
    obtain ⟨held, hheld, hchain, hlast, hheaders⟩ := h.feed
    unfold Line.step
    dsimp only
    split
    next =>
      exact ⟨b, h.owner, h.base, h.pred, h.first, h.newest, held, Held.same hheld rfl rfl,
        hchain, hlast, hheaders⟩
    next => exact ⟨b, h⟩

theorem init_line (frag : Nat) (t : Topic) (o : VarOpts) (acc : Variable) :
    LineInv frag t.nextSeqno (Line.init t o acc) where
  owner := ⟨rfl, rfl, fun _ => trivial, fun _ hx => absurd hx List.not_mem_nil⟩
  base := rfl
  pred _ hp := absurd hp List.not_mem_nil
  first _ hx := by cases hx
  newest := rfl
  feed := ⟨none, rfl, List.IsChain.nil, rfl, fun _ hx => absurd hx List.not_mem_nil⟩

/-- What the invariant says of a state with nothing in flight. -/
theorem LineInv.converged (h : LineInv frag b l) : Converged l := by
  intro hflight x hx
  obtain ⟨held, hheld, -, hlast, -⟩ := h.feed
  rw [hflight, List.append_nil, hx] at hlast
  cases held with
  | none => cases hlast
  | some y =>
    rw [Option.some.inj hlast]
    exact ⟨hheld.1, hheld.2.1⟩

theorem LineInv.succeeds (h : LineInv frag b l) : Succeeds l := by
  intro x hx p hp m n hm hn
  obtain ⟨h1, h2⟩ := h.first x hx p hp
  rw [(h.pred p hp).read] at hm
  rw [(h.owner.shown x (List.mem_of_getLast? hx)).read] at hn
  rw [← Option.some.inj hm, ← Option.some.inj hn]
  refine ⟨?_, behind_of_ahead ⟨Nat.le_of_lt h1, h2⟩⟩
  omega

/-- In every run whose publishes stay in line, the accessor ends on the last sample published,
and every successor starts past its predecessor. -/
theorem accessor_converges (frag peer : Nat) (t : Topic) (o : VarOpts) (acc : Variable)
    (es : List LineEvent)
    (h : Along (Line.step frag peer) (InLine frag) (Line.init t o acc) es) :
    Converged (run (Line.step frag peer) (Line.init t o acc) es) ∧
      Succeeds (run (Line.step frag peer) (Line.init t o acc) es) := by
  obtain ⟨b, hinv⟩ := run_invariant_along (fun l => ∃ b, LineInv frag b l) (step_line frag peer) es
    _ ⟨_, init_line frag t o acc⟩ h
  exact ⟨hinv.converged, hinv.succeeds⟩

/-- A set handed over, and after a new definition another. -/
def succeededRun : List LineEvent :=
  [.owner (.set 0 [1] 0 0 true), .owner (.observed 0), .owner (.send 0 0 (.inline {})),
    .deliver true 0 0 0, .reopen ⟨[97], 0, 0, false, false, 0⟩ false 0,
    .owner (.set 0 [2] 0 0 true), .owner (.observed 0), .owner (.send 0 0 (.inline {})),
    .deliver true 0 0 0]

/-- The accessor ends on the second. -/
theorem accessor_converges_succeeded :
    (run (Line.step 1350 7) plainLine succeededRun).acc.store = [2] ∧
      Converged (run (Line.step 1350 7) plainLine succeededRun) ∧
      Succeeds (run (Line.step 1350 7) plainLine succeededRun) := by
  refine ⟨by decide +kernel, accessor_converges 1350 7 .undefined ⟨[97], 0, 0, false, false, 0⟩
    { isOwner := false, allowForce := false } succeededRun ?_⟩
  refine ⟨?_, ?_, ?_, rfl, trivial, ?_, ?_, ?_, rfl, trivial⟩
  · intro serial header data sourceUs via hpub
    cases hpub
  · intro serial header data sourceUs via hpub
    cases hpub
  · intro serial header data sourceUs via _ _
    refine ⟨fun x hx => ?_, fun _ p hp => ?_⟩
    · cases hx
    · cases hp
  · intro serial header data sourceUs via hpub
    cases hpub
  · intro serial header data sourceUs via hpub
    cases hpub
  · -- the predecessor published its one write
    intro serial header data sourceUs via hpub _
    have hserial : serial = 1 := by
      cases hpub
      rfl
    rw [hserial]
    refine ⟨fun x hx => ?_, fun _ => past_of_published ?_ Nat.one_pos (by decide +kernel)⟩
    · cases hx
    · intro p hp
      rw [List.mem_singleton.mp hp]
      exact Nat.le_refl 1

end Rant.Patterns
