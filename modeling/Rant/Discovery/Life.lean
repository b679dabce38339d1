import Rant.Discovery.Store
import Rant.Discovery.Handlers
/-!
# A peer's life

What the hooks may hear of one id, as two automata over the trace: `heard` for the seen hook
and `phase` for the slot hooks. `Inv` ties them to the records. Inside a handler a record may
be out of step with what the hooks heard of it, so `Inv` takes an override: `x i` is the
status of the record at `i` where it is not yet the one its fields say.

Past `2 ^ 32 - 1` records the ids start over, and only what does not speak of ids still holds.
-/

namespace Rant.Discovery

open Rant.Transport (Bytes)

/-! ## What the hooks heard -/

/-- The id a hook is called with. -/
def Mark.hookId : Mark → Option Nat
  | .seen id _ _ => some id
  | .up id _ _ => some id
  | .down id _ => some id
  | .asked id _ _ => some id
  | .error _ id _ _ => some id
  | _ => none

/-- After this, nothing of the id. -/
def Mark.ends (id : Nat) : Mark → Prop
  | .removed id' => id' = id
  | .down id' .gone => id' = id
  | _ => False

/-- The seen hook alternates heard and lost, heard first: `none` is that it did not. -/
def heardNext (id : Nat) (h : Option Bool) : Mark → Option Bool
  | .seen id' _ up => if id' = id then (if h = some (!up) then some up else none) else h
  | _ => h

def heard (id : Nat) (t : List Mark) : Option Bool := t.foldl (heardNext id) (some false)

/-- Where the slot hooks left an id. -/
inductive Phase
  | off
  | on
  | silent
  deriving Repr, DecidableEq

/-- One step of the slot hooks' automaton. -/
def Phase.down : Phase → DownReason → Option Phase
  | .on, .drop => some .silent
  | .on, _ => some .off
  | .silent, .gone => some .off
  | .silent, .giveBack => some .off
  | _, _ => none

def phaseNext (id : Nat) (p : Option Phase) : Mark → Option Phase
  | .up id' _ _ => if id' = id then p.map fun _ => .on else p
  | .down id' reason => if id' = id then p.bind (·.down reason) else p
  | _ => p

def phase (id : Nat) (t : List Mark) : Option Phase := t.foldl (phaseNext id) (some .off)

/-- How many records were ever added. -/
def given (t : List Mark) : Nat :=
  t.countP fun m => match m with
    | .added _ _ => true
    | _ => false

/-- No hook of an id after its end. -/
def Ended (t : List Mark) : Prop :=
  t.Pairwise fun m h => ∀ id, m.ends id → h.hookId ≠ some id

/-- A slot is taken that is free, or of a DROPPED record, or on a match from a live loan. -/
def Mark.Fair : Mark → Prop
  | .taken _ held verdict =>
    held = none ∨ (∃ loan, held = some (.dropped, loan)) ∨ held = some (.active, true) ∧ verdict = .yes
  | _ => True

/-- What is heard of a peer up to the last hook. -/
theorem heard_append (id : Nat) (t : List Mark) (m : Mark) :
    heard id (t ++ [m]) = heardNext id (heard id t) m := by
  unfold heard
  rw [List.foldl_append]
  rfl

/-- How far a peer is after the last hook. -/
theorem phase_append (id : Nat) (t : List Mark) (m : Mark) :
    phase id (t ++ [m]) = phaseNext id (phase id t) m := by
  unfold phase
  rw [List.foldl_append]
  rfl

theorem heardNext_seen (id : Nat) (h : Option Bool) (addr : Addr) (up : Bool) :
    heardNext id h (.seen id addr up) = if h = some (!up) then some up else none :=
  if_pos rfl

theorem phaseNext_up (id : Nat) (p : Option Phase) (addr : Addr) (blob : Bytes) :
    phaseNext id p (.up id addr blob) = p.map fun _ => .on :=
  if_pos rfl

theorem phaseNext_down (id : Nat) (p : Option Phase) (reason : DownReason) :
    phaseNext id p (.down id reason) = p.bind (·.down reason) :=
  if_pos rfl

/-- A trace is ended well when its front is and the last hook is of nobody gone. -/
theorem ended_append (t : List Mark) (m : Mark) :
    Ended (t ++ [m]) ↔ Ended t ∧ ∀ a ∈ t, ∀ id, a.ends id → m.hookId ≠ some id := by
  unfold Ended
  rw [List.pairwise_append]
  simp

/-- A mark of neither automaton, of no record's coming or going, and of no slot taken. -/
def Mark.plain : Mark → Bool
  | .asked _ _ _ => true
  | .error _ _ _ _ => true
  | .judged _ _ _ => true
  | _ => false

theorem plain_ends {m : Mark} (h : m.plain = true) (id : Nat) : ¬ m.ends id := by
  intro hend
  cases m <;> first | exact hend | cases h

/-- Hooks that are plain tell of no peer's coming or going. -/
theorem heard_plain {ms : List Mark} : ∀ {t : List Mark}, (∀ m ∈ ms, m.plain = true) → ∀ id,
    heard id (t ++ ms) = heard id t ∧ phase id (t ++ ms) = phase id t ∧
      given (t ++ ms) = given t := by
  induction ms with
  | nil => intro t _ id; simp
  | cons m ms ih =>
    intro t h id
    have hm := h m List.mem_cons_self
    obtain ⟨h1, h2, h3⟩ := ih (t := t ++ [m]) (fun n hn => h n (List.mem_cons_of_mem m hn)) id
    rw [List.append_assoc] at h1 h2 h3
    rw [List.singleton_append] at h1 h2 h3
    rw [h1, h2, h3, heard_append, phase_append]
    unfold given
    rw [List.countP_append]
    cases m <;> first | exact ⟨rfl, rfl, rfl⟩ | cases hm

/-! ## The invariant -/

/-- What a record's own fields say the hooks heard of it. -/
def Rec.status (r : Rec) : Bool × Phase :=
  (r.state = .active,
    if r.slot = none then .off else if r.state = .active then .on else .silent)

/-- What a core is to the others: whether it started, since when its overlay is out, its uuid,
its name, its version and its clock. -/
def Core.own (st : Core) : Bool × Nat × Bytes × Bytes × Nat × Nat :=
  (st.started, st.changed, st.cfg.uuid, st.selfName, st.selfVersion, st.now)

/-- The uuids a core may take for judged by assumption, and what it is itself. -/
structure Ground where
  assumed : Bytes → Prop
  own : Bool × Nat × Bytes × Bytes × Nat × Nat

/-- A record in order. -/
structure Rec.Calm (A : Ground) (t : List Mark) (r : Rec) : Prop where
  want : r.slot ≠ none → r.want = .no
  full : r.full = true → r.slot = none ∧ r.want = .no
  version : r.metaVersion ≤ r.advVersion
  judged : r.metaVersion ≠ 0 → (∃ v, Mark.judged r.localId r.uuid v ∈ t) ∨ A.assumed r.uuid

/-- What a record's status is, where it is not the one its fields say. -/
abbrev Override := Nat → Option (Bool × Phase)

/-- Every record is in step with the hooks. -/
def settled : Override := fun _ => none

/-- Every record but the one at `i`. -/
def only (i : Nat) (v : Bool × Phase) : Override := fun j => if j = i then some v else none

/-- What the hooks heard, tied to the records. -/
structure Told (x : Override) (st : Core) : Prop where
  next : st.records.nextId = (given st.trace + 1) % 2 ^ 32
  range : ∀ i r, st.recAt i = some r → 0 < r.localId ∧ r.localId ≤ given st.trace
  ids : ∀ i j r q, st.recAt i = some r → st.recAt j = some q → r.localId = q.localId → i = j
  tie : ∀ i r, st.recAt i = some r →
    heard r.localId st.trace = some ((x i).getD r.status).1 ∧
      phase r.localId st.trace = some ((x i).getD r.status).2
  rest : ∀ id, (∀ i r, st.recAt i = some r → r.localId ≠ id) →
    heard id st.trace = some false ∧ phase id st.trace = some .off
  ended : Ended st.trace
  alive : ∀ i r, st.recAt i = some r → ∀ m ∈ st.trace, ¬ m.ends r.localId
  past : ∀ m ∈ st.trace, ∀ id, m.ends id → 0 < id ∧ id ≤ given st.trace
  born : ∀ id u, Mark.added id u ∈ st.trace → Mark.removed id ∈ st.trace ∨
    ∃ i r, st.recAt i = some r ∧ r.localId = id ∧ r.uuid = u

structure Inv (A : Ground) (x : Override) (st : Core) : Prop where
  store : st.records.WF
  seats : ∀ s i, st.slotRec s = some i ↔ ∃ r, st.recAt i = some r ∧ r.slot = some s
  calm : ∀ i r, st.recAt i = some r → r.Calm A st.trace
  fair : ∀ m ∈ st.trace, m.Fair
  told : given st.trace < 2 ^ 32 → Told x st
  own : st.own = A.own

/-! ## Steps that say nothing new -/

/-- Who a record is, and what the hooks are to have heard of it. -/
def Rec.place (r : Rec) : (Bytes × Nat) × RecState × Option Nat :=
  (Records.idOf r, r.state, r.slot)

/-- A mark that comes from a record that is there, or has id 0. -/
def Core.Says (st : Core) (m : Mark) : Prop :=
  m.plain = true ∧ (∀ id, m.hookId = some id → id = 0 ∨ ∃ i r, st.recAt i = some r ∧ r.localId = id)

/-- No record came, went or moved. -/
structure Same (st st' : Core) : Prop where
  recs : ∀ i, (st'.recAt i).map Rec.place = (st.recAt i).map Rec.place
  wf : st.records.WF → st'.records.WF
  next : st'.records.nextId = st.records.nextId
  slots : ∀ s, st'.slotRec s = st.slotRec s
  trace : ∃ ms, st'.trace = st.trace ++ ms ∧ ∀ m ∈ ms, st.Says m
  own : st'.own = st.own

section place

variable {r q : Rec} (h : r.place = q.place)
include h

theorem place_idOf : Records.idOf r = Records.idOf q := congrArg Prod.fst h
theorem place_uuid : r.uuid = q.uuid := congrArg (fun c => c.1.1) h
theorem place_localId : r.localId = q.localId := congrArg (fun c => c.1.2) h
theorem place_state : r.state = q.state := congrArg (fun c => c.2.1) h
theorem place_slot : r.slot = q.slot := congrArg (fun c => c.2.2) h

theorem place_status : r.status = q.status := by
  unfold Rec.status
  rw [place_state h, place_slot h]

end place

variable {A : Ground} {x : Override} {st st' : Core}

variable {i : Nat}

/-- A record there after was there before. -/
theorem Same.bwd (h : Same st st') {r' : Rec} (hr : st'.recAt i = some r') :
    ∃ r, st.recAt i = some r ∧ r.place = r'.place := by
  have := h.recs i
  rw [hr] at this
  exact Option.map_eq_some_iff.mp this.symm

/-- A record there before is there after. -/
theorem Same.fwd (h : Same st st') {r : Rec} (hr : st.recAt i = some r) :
    ∃ r', st'.recAt i = some r' ∧ r'.place = r.place := by
  have := h.recs i
  rw [hr] at this
  exact Option.map_eq_some_iff.mp this

theorem Same.mem_trace (h : Same st st') {m : Mark} (hm : m ∈ st.trace) : m ∈ st'.trace := by
  obtain ⟨ms, hms, -⟩ := h.trace
  rw [hms]
  exact List.mem_append_left _ hm

/-- Marks of records that are there keep every end the last. -/
theorem ended_says {t : List Mark} {ms : List Mark} (h : Ended t) (hplain : ∀ m ∈ ms, m.plain = true)
    (hsay : ∀ m ∈ ms, ∀ id, m.hookId = some id → ∀ a ∈ t, ¬ a.ends id) : Ended (t ++ ms) := by
  unfold Ended
  rw [List.pairwise_append]
  refine ⟨h, ?_, fun a ha m hm id hend hid => hsay m hm id hid a ha hend⟩
  exact List.pairwise_of_forall_mem_list fun m hm n _ id hend =>
    absurd hend (plain_ends (hplain m hm) id)

/-- Who moves no record, holds no slot and tells no hook out of turn keeps the invariant. -/
theorem Inv.same (h : Inv A x st) (g : Same st st')
    (hcalm : ∀ i r, st'.recAt i = some r → r.Calm A st'.trace) : Inv A x st' := by
  obtain ⟨ms, hms, hsay⟩ := g.trace
  have hplain : ∀ m ∈ ms, m.plain = true := fun m hm => (hsay m hm).1
  refine ⟨g.wf h.store, fun s i => ?_, hcalm, fun m hm => ?_, fun hlt => ?_, g.own.trans h.own⟩
  · rw [g.slots s, h.seats s i]
    constructor
    · rintro ⟨r, hr, hs⟩
      obtain ⟨r', hr', hc⟩ := g.fwd hr
      exact ⟨r', hr', (place_slot hc).trans hs⟩
    · rintro ⟨r', hr', hs⟩
      obtain ⟨r, hr, hc⟩ := g.bwd hr'
      exact ⟨r, hr, (place_slot hc).trans hs⟩
  · rw [hms] at hm
    rcases List.mem_append.mp hm with hm | hm
    · exact h.fair m hm
    · have := hplain m hm
      cases m <;> trivial
  -- no peer is added by the handler's marks, so no id was given out
  · have hgiven : given st'.trace = given st.trace := by
      rw [hms]
      exact (heard_plain hplain 0).2.2
    have ht := h.told (hgiven ▸ hlt)
    refine ⟨?_, ?_, ?_, ?_, ?_, ?_, ?_, ?_, ?_⟩
    · rw [g.next, hgiven]
      exact ht.next
    · intro i r' hr'
      obtain ⟨r, hr, hc⟩ := g.bwd hr'
      rw [hgiven, ← place_localId hc]
      exact ht.range i r hr
    · intro i j r' q' hr' hq' hid
      obtain ⟨r, hr, hc⟩ := g.bwd hr'
      obtain ⟨q, hq, hd⟩ := g.bwd hq'
      refine ht.ids i j r q hr hq ?_
      rw [place_localId hc, place_localId hd, hid]
    · intro i r' hr'
      obtain ⟨r, hr, hc⟩ := g.bwd hr'
      rw [← place_localId hc, ← place_status hc, hms, (heard_plain hplain _).1,
        (heard_plain hplain _).2.1]
      exact ht.tie i r hr
    · intro id hno
      rw [hms, (heard_plain hplain _).1, (heard_plain hplain _).2.1]
      refine ht.rest id fun i r hr hid => ?_
      obtain ⟨r', hr', hc⟩ := g.fwd hr
      exact hno i r' hr' ((place_localId hc).trans hid)
    · rw [hms]
      refine ended_says ht.ended hplain fun m hm id hid a ha hend => ?_
      rcases (hsay m hm).2 id hid with h0 | ⟨i, r, hr, hidr⟩
      · have := (ht.past a ha id hend).1
        omega
      · exact ht.alive i r hr a ha (hidr ▸ hend)
    · intro i r' hr' m hm
      obtain ⟨r, hr, hc⟩ := g.bwd hr'
      rw [hms] at hm
      rw [← place_localId hc]
      rcases List.mem_append.mp hm with hm | hm
      · exact ht.alive i r hr m hm
      · exact plain_ends (hplain m hm) _
    · intro m hm id hend
      rw [hms] at hm
      rw [hgiven]
      rcases List.mem_append.mp hm with hm | hm
      · exact ht.past m hm id hend
      · exact absurd hend (plain_ends (hplain m hm) id)
    · intro id u hm
      rw [hms] at hm
      rcases List.mem_append.mp hm with hm | hm
      · rcases ht.born id u hm with hrem | ⟨i, r, hr, hid, hu⟩
        · exact Or.inl (g.mem_trace hrem)
        · obtain ⟨r', hr', hc⟩ := g.fwd hr
          exact Or.inr ⟨i, r', hr', (place_localId hc).trans hid, (place_uuid hc).trans hu⟩
      · cases hplain _ hm

/-- What a step of no consequence keeps of each record. -/
def Rec.core (r : Rec) : ((Bytes × Nat) × RecState × Option Nat) × Admit × Bool × Nat × Nat :=
  (r.place, r.want, r.full, r.metaVersion, r.advVersion)

/-- Nothing changed that the invariant speaks of. -/
structure Quiet (st st' : Core) : Prop where
  recs : ∀ i, (st'.recAt i).map Rec.core = (st.recAt i).map Rec.core
  wf : st.records.WF → st'.records.WF
  next : st'.records.nextId = st.records.nextId
  slots : ∀ s, st'.slotRec s = st.slotRec s
  trace : ∃ ms, st'.trace = st.trace ++ ms ∧ ∀ m ∈ ms, st.Says m
  own : st'.own = st.own

theorem Quiet.toSame (h : Quiet st st') : Same st st' := by
  refine ⟨fun i => ?_, h.wf, h.next, h.slots, h.trace, h.own⟩
  have := congrArg (Option.map Prod.fst) (h.recs i)
  rw [Option.map_map, Option.map_map] at this
  exact this

/-- A write of what the invariant does not read. -/
theorem Quiet.of (hr : st'.records = st.records) (hs : st'.slots = st.slots)
    (ht : st'.trace = st.trace) (ho : st'.own = st.own) : Quiet st st' := by
  refine ⟨fun i => ?_, fun h => hr ▸ h, by rw [hr], fun s => ?_,
    ⟨[], by rw [ht, List.append_nil], fun m hm => (by cases hm)⟩, ho⟩
  · unfold Core.recAt
    rw [hr]
  · unfold Core.slotRec
    rw [hs]

theorem Quiet.refl (st : Core) : Quiet st st := Quiet.of rfl rfl rfl rfl

theorem Quiet.bwd (h : Quiet st st') {r' : Rec} (hr : st'.recAt i = some r') :
    ∃ r, st.recAt i = some r ∧ r.core = r'.core := by
  have := h.recs i
  rw [hr] at this
  exact Option.map_eq_some_iff.mp this.symm

theorem Quiet.fwd (h : Quiet st st') {r : Rec} (hr : st.recAt i = some r) :
    ∃ r', st'.recAt i = some r' ∧ r'.core = r.core := by
  have := h.recs i
  rw [hr] at this
  exact Option.map_eq_some_iff.mp this

section core

variable {r q : Rec} (h : r.core = q.core)
include h

theorem core_place : r.place = q.place := congrArg (fun c => c.1) h
theorem core_want : r.want = q.want := congrArg (fun c => c.2.1) h
theorem core_full : r.full = q.full := congrArg (fun c => c.2.2.1) h
theorem core_metaVersion : r.metaVersion = q.metaVersion := congrArg (fun c => c.2.2.2.1) h
theorem core_advVersion : r.advVersion = q.advVersion := congrArg (fun c => c.2.2.2.2) h

end core

/-- Quiet steps chain. What the second tells is of a record the first left. -/
theorem Quiet.trans {a b c : Core} (h : Quiet a b) (g : Quiet b c) : Quiet a c := by
  obtain ⟨ms, hms, hsay⟩ := h.trace
  obtain ⟨ns, hns, hsay'⟩ := g.trace
  refine ⟨fun i => (g.recs i).trans (h.recs i), fun hw => g.wf (h.wf hw), g.next.trans h.next,
    fun s => (g.slots s).trans (h.slots s), ⟨ms ++ ns, by rw [hns, hms, List.append_assoc], ?_⟩,
    g.own.trans h.own⟩
  intro m hm
  rcases List.mem_append.mp hm with hm | hm
  · exact hsay m hm
  · refine ⟨(hsay' m hm).1, fun id hid => ?_⟩
    rcases (hsay' m hm).2 id hid with h0 | ⟨i, r', hr', hid'⟩
    · exact Or.inl h0
    · obtain ⟨r, hr, hcore⟩ := h.bwd hr'
      exact Or.inr ⟨i, r, hr, (place_localId (core_place hcore)).trans hid'⟩

/-- A record is calm by its core alone. -/
theorem Rec.Calm.core {t t' : List Mark} {r q : Rec} (hc : r.Calm A t) (h : q.core = r.core)
    (ht : ∀ m ∈ t, m ∈ t') : q.Calm A t' := by
  have hp := core_place h
  refine ⟨fun hs => ?_, fun hf => ?_, ?_, fun hm => ?_⟩
  · rw [core_want h]
    exact hc.want (place_slot hp ▸ hs)
  · rw [place_slot hp, core_want h]
    exact hc.full (core_full h ▸ hf)
  · rw [core_metaVersion h, core_advVersion h]
    exact hc.version
  · rw [place_uuid hp, place_localId hp]
    rw [core_metaVersion h] at hm
    exact (hc.judged hm).imp (fun hv => hv.imp fun v hv => ht _ hv) id

/-- Every quiet step keeps the invariant. -/
theorem Inv.quiet (h : Inv A x st) (g : Quiet st st') : Inv A x st' := by
  refine h.same g.toSame fun i r' hr' => ?_
  obtain ⟨r, hr, hc⟩ := g.bwd hr'
  exact (h.calm i r hr).core hc.symm fun m hm => g.toSame.mem_trace hm

/-- An invariant under a weaker word on assumptions. -/
theorem Inv.mono {B : Ground} (h : Inv A x st) (hAB : ∀ u, A.assumed u → B.assumed u)
    (hown : st.own = B.own) : Inv B x st :=
  ⟨h.store, h.seats, fun i r hr => ⟨(h.calm i r hr).want, (h.calm i r hr).full,
    (h.calm i r hr).version, fun hm => ((h.calm i r hr).judged hm).imp id (hAB _)⟩, h.fair, h.told, hown⟩

/-- A core that became something else to the others. -/
theorem Inv.reown (h : Inv A x st) (hr : st'.records = st.records) (hs : st'.slots = st.slots)
    (ht : st'.trace = st.trace) : Inv ⟨A.assumed, st'.own⟩ x st' := by
  have hrec : st'.recAt = st.recAt := by
    unfold Core.recAt
    rw [hr]
  have hslot : st'.slotRec = st.slotRec := by
    unfold Core.slotRec
    rw [hs]
  refine ⟨by rw [hr]; exact h.store, by rw [hslot, hrec]; exact h.seats, fun i r hi => ?_,
    by rw [ht]; exact h.fair, fun hlt => ?_, rfl⟩
  · rw [hrec] at hi
    rw [ht]
    have hc := h.calm i r hi
    exact ⟨hc.want, hc.full, hc.version, hc.judged⟩
  · have hst := h.told (ht ▸ hlt)
    constructor
    · rw [hr, ht]
      exact hst.next
    · rw [hrec, ht]
      exact hst.range
    · rw [hrec]
      exact hst.ids
    · rw [hrec, ht]
      exact hst.tie
    · rw [hrec, ht]
      exact hst.rest
    · rw [ht]
      exact hst.ended
    · rw [hrec, ht]
      exact hst.alive
    · rw [ht]
      exact hst.past
    · rw [hrec, ht]
      exact hst.born

/-! ## The quiet steps -/

/-- A record rewritten is read at its place and nowhere else. -/
theorem Core.recAt_modRec (st : Core) (i : Nat) (f : Rec → Rec) (j : Nat) :
    (st.modRec i f).recAt j = if j = i then (st.recAt j).map f else st.recAt j :=
  Records.get_modify st.records i f j

theorem Core.recAt_modRec_self {r : Rec} (hr : st.recAt i = some r) (f : Rec → Rec) :
    (st.modRec i f).recAt i = some (f r) :=
  Records.get_modify_self hr f

theorem Core.recAt_modRec_ne {j : Nat} (h : j ≠ i) (f : Rec → Rec) :
    (st.modRec i f).recAt j = st.recAt j := by
  rw [Core.recAt_modRec, if_neg h]

/-- A rewrite that keeps a record's place. -/
theorem same_modRec {f : Rec → Rec} (hf : ∀ r, st.recAt i = some r → (f r).place = r.place) :
    Same st (st.modRec i f) := by
  refine ⟨fun j => ?_, fun h => ?_, rfl, fun _ => rfl,
    ⟨[], (List.append_nil _).symm, fun m hm => (by cases hm)⟩, rfl⟩
  · rw [Core.recAt_modRec]
    split
    next hj =>
      subst hj
      cases hr : st.recAt j with
      | none => rfl
      | some r => exact congrArg some (hf r hr)
    next => rfl
  · refine h.modify i f fun r hr => ?_
    unfold Records.keyOf
    have hp := hf r hr
    rw [show Records.idOf (f r) = Records.idOf r from congrArg Prod.fst hp, place_state hp]

/-- A rewrite that keeps a record's core is quiet. -/
theorem quiet_modRec {f : Rec → Rec} (hf : ∀ r, st.recAt i = some r → (f r).core = r.core) :
    Quiet st (st.modRec i f) := by
  have hs := same_modRec fun r hr => core_place (hf r hr)
  refine ⟨fun j => ?_, hs.wf, rfl, fun _ => rfl, hs.trace, rfl⟩
  rw [Core.recAt_modRec]
  split
  next hj =>
    subst hj
    cases hr : st.recAt j with
    | none => rfl
    | some r => exact congrArg some (hf r hr)
  next => rfl

/-- So is a write of what records owe. -/
theorem quiet_owes {records : Records} (ho : Records.Owes st.records records) :
    Quiet st { st with records := records } := by
  refine ⟨fun i => ?_, fun h => h.owes ho, ho.nextId, fun _ => rfl,
    ⟨[], (List.append_nil _).symm, fun m hm => (by cases hm)⟩, rfl⟩
  show (records.get i).map Rec.core = (st.records.get i).map Rec.core
  rcases ho.get i with ⟨h1, h2⟩ | ⟨r, owed, due, h1, h2⟩
  · rw [h1, h2]
  · rw [h1, h2]
    rfl

theorem quiet_noteAsk (st : Core) (m : AskMark) : Quiet st (st.noteAsk m) := Quiet.of rfl rfl rfl rfl

theorem quiet_owe (st : Core) (i : Nat) (bits : Owed) (due : Nat) : Quiet st (st.owe i bits due) :=
  (quiet_owes (Records.owe_owes st.records i bits due)).trans (Quiet.of rfl rfl rfl rfl)

theorem quiet_settle (st : Core) (i : Nat) (bits : Owed) : Quiet st (st.settle i bits) :=
  quiet_owes (Records.settle_owes st.records i bits)

/-- A mark of id 0, or of a record. -/
theorem quiet_note {m : Mark} (h : st.Says m) : Quiet st (st.note m) := by
  refine ⟨fun _ => rfl, fun h => h, rfl, fun _ => rfl, ⟨[m], rfl, fun n hn => ?_⟩, rfl⟩
  rw [List.mem_singleton.mp hn]
  exact h

/-- A change of what a slot holds for its record. -/
theorem quiet_modSlot {s : Nat} {f : Slot → Slot} (hf : ∀ slot, (f slot).holder = slot.holder) :
    Quiet st (st.modSlot s f) := by
  refine ⟨fun _ => rfl, fun h => h, rfl, fun t => ?_,
    ⟨[], (List.append_nil _).symm, fun m hm => (by cases hm)⟩, rfl⟩
  show ((st.slots.modify s f)[t]?).bind Slot.holder = (st.slots[t]?).bind Slot.holder
  rw [List.getElem?_modify]
  cases st.slots[t]? with
  | none => rfl
  | some slot =>
    by_cases hst : s = t
    · simp [hst, hf]
    · simp [hst]

end Rant.Discovery
