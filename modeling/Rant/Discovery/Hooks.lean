import Mathlib.Data.List.Nodup
import Rant.Discovery.Steps
/-!
# Seats and hooks of every run

What a run of a core keeps: `Seated`, the slots and the records in bijection, and `Hooked`, the
order in which the hooks hear of an id. Both hold between events, after any list of them.
-/

namespace Rant.Discovery

open Rant.Lib
open Rant.Transport (Bytes)

variable {cfg : Config} {st : Core}

/-- The invariant in every state a fresh core reaches. -/
theorem inv_of_runs (h : Core.init cfg = some st) (es : List Event) :
    Inv (.any (st.runs es)) settled (st.runs es) :=
  ((init_inv h).mono (fun _ hf => hf.elim) rfl).runs es

/-- **A lookup is exact in every run**: a uuid's hash chain leads to the record that has it. -/
theorem find_runs (h : Core.init cfg = some st) (es : List Event) (uuid : Bytes) (i : Nat) :
    (st.runs es).records.find uuid = some i ↔
      ∃ r, (st.runs es).recAt i = some r ∧ r.uuid = uuid := by
  have hstore := (inv_of_runs h es).store
  refine ⟨Records.find_some, fun ⟨r, hr, hu⟩ => ?_⟩
  cases hf : (st.runs es).records.find uuid with
  | none => exact absurd hu (hstore.find_none hf i r hr)
  | some j =>
    obtain ⟨q, hq, hqu⟩ := Records.find_some hf
    rw [hstore.uuids i j r q hr hq (hu.trans hqu.symm)]

/-! ## Slots -/

/-- The slots and the records of a core. -/
structure Seated (st : Core) : Prop where
  seats : ∀ s i, st.slotRec s = some i ↔ ∃ r, st.recAt i = some r ∧ r.slot = some s
  want : ∀ i r, st.recAt i = some r → r.slot ≠ none → r.want = .no
  full : ∀ i r, st.recAt i = some r → r.full = true → r.slot = none ∧ r.want = .no
  version : ∀ i r, st.recAt i = some r → r.metaVersion ≤ r.advVersion
  taken : ∀ m ∈ st.trace, m.Fair

/-- The slots and the records agree. -/
theorem Inv.seated {A : Ground} {x : Override} (h : Inv A x st) : Seated st :=
  ⟨h.seats, fun i r hr => (h.calm i r hr).want, fun i r hr => (h.calm i r hr).full,
    fun i r hr => (h.calm i r hr).version, h.fair⟩

/-- After any events a slot names a record exactly where the record names the slot, a record
that is seated or FULL wants nothing, none holds a version it did not advertise, and no slot was
taken from a live match. -/
theorem seated_runs (h : Core.init cfg = some st) (es : List Event) : Seated (st.runs es) :=
  (inv_of_runs h es).seated

/-- A node with a pool for one peer and no hook to judge it. -/
def lone (tag : UInt8) : Config where
  uuid := List.replicate 16 tag
  uuidLen := List.length_replicate
  domain := 0
  domainLt := by decide
  dataPort := 7
  dataPortLt := by decide
  interval := 1
  peerTimeout := 5000000
  goneTimeout := 5000000
  maxPeers := 1
  maxRecords := 1
  observer := false
  name := []
  blob := []
  metaCap := 64
  metaCapLt := by decide
  admits := false
  hooked := false

/-- The peer of a tag announces data port 7 from an address. -/
def announces (tag : UInt8) (ip : Bytes) (now : Nat) : Event :=
  .datagram {} (some ⟨ip, 7400⟩) (encodeBytes { uuid := List.replicate 16 tag, dataPort := 7 }) now

/-- A node that opens, hears another and loses it. -/
theorem seated_runs_lone : ∃ st, Core.init (lone 1) = some st ∧
    Seated (st.runs [.update 5 2000, announces 2 [10, 0, 0, 2] 6, .update 6000000 2000]) := by
  obtain ⟨st, hst⟩ : ∃ st, Core.init (lone 1) = some st := ⟨_, rfl⟩
  exact ⟨st, hst, seated_runs hst _⟩

/-- Three peers, of which the pool seats the first. -/
def threeHeard : List Event :=
  [.update 5 2000, announces 2 [10, 0, 0, 2] 6, announces 3 [10, 0, 0, 3] 7,
    announces 4 [10, 0, 0, 4] 8]

/-- The records and their chains grow twice for three peers, and the third is found. -/
theorem find_runs_lone : ∃ st, Core.init { lone 1 with maxRecords := 4, hooked := true } = some st ∧
    st.records.recs.length = 1 ∧ (st.runs threeHeard).records.recs.length = 4 ∧
    (st.runs threeHeard).slotRec 0 = some 0 ∧
    ∃ r, (st.runs threeHeard).recAt 2 = some r ∧ r.uuid = List.replicate 16 4 := by
  obtain ⟨st, hst⟩ : ∃ st, Core.init { lone 1 with maxRecords := 4, hooked := true } = some st :=
    ⟨_, rfl⟩
  have hrun : (Core.init { lone 1 with maxRecords := 4, hooked := true }).all fun st =>
      (st.records.recs.length = 1 ∧ (st.runs threeHeard).records.recs.length = 4 ∧
        (st.runs threeHeard).slotRec 0 = some 0) ∧
      (st.runs threeHeard).records.find (List.replicate 16 4) = some 2 := by decide +kernel
  rw [hst, Option.all_some, decide_eq_true_iff] at hrun
  obtain ⟨⟨hone, hfour, hseat⟩, hfind⟩ := hrun
  exact ⟨st, hst, hone, hfour, hseat, (find_runs hst threeHeard _ 2).mp hfind⟩

/-! ## Hooks -/

/-- The hooks of a core, over its whole trace. -/
structure Hooked (st : Core) : Prop where
  /-- The seen hook alternates, heard first. -/
  seen : ∀ id, heard id st.trace ≠ none
  /-- The live count is the number of ids last heard. -/
  live : ∃ ids : List Nat, ids.Nodup ∧ (∀ id, id ∈ ids ↔ heard id st.trace = some true) ∧
    st.records.live = ids.length
  /-- The slot hooks keep to their automaton. -/
  slots : ∀ id, phase id st.trace ≠ none
  on : ∀ id, phase id st.trace = some .on ↔ ∃ i r, st.recAt i = some r ∧ r.localId = id ∧
    r.state = .active ∧ r.slot ≠ none
  silent : ∀ id, phase id st.trace = some .silent ↔ ∃ i r, st.recAt i = some r ∧ r.localId = id ∧
    r.state = .dropped ∧ r.slot ≠ none
  /-- No hook after GONE or a removal. -/
  ended : Ended st.trace
  /-- A uuid whose record was not removed has the id it was first given. -/
  kept : ∀ id u, Mark.added id u ∈ st.trace → Mark.removed id ∉ st.trace →
    ∀ i r, st.recAt i = some r → r.uuid = u → r.localId = id

theorem status_on {r : Rec} : r.status.2 = .on ↔ r.state = .active ∧ r.slot ≠ none := by
  unfold Rec.status
  by_cases hs : r.slot = none
  · rw [if_pos hs]
    exact ⟨fun hc => (by cases hc), fun hc => absurd hs hc.2⟩
  rw [if_neg hs]
  cases r.state with
  | active => exact ⟨fun _ => ⟨rfl, hs⟩, fun _ => rfl⟩
  | dropped => exact ⟨fun hc => (by cases hc), fun hc => (by cases hc.1)⟩

theorem status_silent {r : Rec} : r.status.2 = .silent ↔ r.state = .dropped ∧ r.slot ≠ none := by
  unfold Rec.status
  by_cases hs : r.slot = none
  · rw [if_pos hs]
    exact ⟨fun hc => (by cases hc), fun hc => absurd hs hc.2⟩
  rw [if_neg hs]
  cases r.state with
  | active => exact ⟨fun hc => (by cases hc), fun hc => (by cases hc.1)⟩
  | dropped => exact ⟨fun _ => ⟨rfl, hs⟩, fun _ => rfl⟩

/-- The id of a live record. -/
def Rec.liveId (r : Rec) : Option Nat := if r.state = .active then some r.localId else none

theorem liveId_eq {r : Rec} {id : Nat} : r.liveId = some id ↔ r.state = .active ∧ r.localId = id := by
  unfold Rec.liveId
  by_cases hr : r.state = .active
  · rw [if_pos hr, Option.some.injEq]
    exact (and_iff_right hr).symm
  · rw [if_neg hr]
    exact ⟨fun hc => (by cases hc), fun hc => absurd hc.1 hr⟩

section told

variable (h : Told settled st)
include h

/-- What the hooks heard of an id is the status of its record, or of none. -/
theorem Told.of_id (id : Nat) :
    (∃ i r, st.recAt i = some r ∧ r.localId = id ∧ heard id st.trace = some r.status.1 ∧
        phase id st.trace = some r.status.2) ∨
      (∀ i r, st.recAt i = some r → r.localId ≠ id) ∧ heard id st.trace = some false ∧
        phase id st.trace = some .off := by
  by_cases hid : ∃ i r, st.recAt i = some r ∧ r.localId = id
  · obtain ⟨i, r, hr, hid⟩ := hid
    obtain ⟨h1, h2⟩ := h.tie i r hr
    rw [hid] at h1 h2
    exact Or.inl ⟨i, r, hr, hid, h1, h2⟩
  · have hno : ∀ i r, st.recAt i = some r → r.localId ≠ id := fun i r hr hc => hid ⟨i, r, hr, hc⟩
    exact Or.inr ⟨hno, h.rest id hno⟩

/-- An id of no record has neither of the phases that tell of one. -/
theorem Told.phase_iff {p : Phase} (hp : p ≠ .off) (id : Nat) :
    phase id st.trace = some p ↔
      ∃ i r, st.recAt i = some r ∧ r.localId = id ∧ r.status.2 = p := by
  constructor
  · intro hphase
    rcases h.of_id id with ⟨i, r, hr, hid, -, h2⟩ | ⟨-, -, h2⟩
    · rw [hphase] at h2
      exact ⟨i, r, hr, hid, (Option.some.inj h2).symm⟩
    · rw [hphase] at h2
      exact absurd (Option.some.inj h2) hp
  · rintro ⟨i, r, hr, hid, hs⟩
    rw [← hid, (h.tie i r hr).2]
    exact congrArg some hs

/-- The ids of the live records. -/
theorem Told.live (hwf : st.records.WF) : ∃ ids : List Nat, ids.Nodup ∧
    (∀ id, id ∈ ids ↔ heard id st.trace = some true) ∧ st.records.live = ids.length := by
  have hcount : st.records.recs = (List.range st.records.cap).map st.recAt := by
    refine List.ext_getElem (by rw [List.length_map, List.length_range]; rfl) fun i h1 h2 => ?_
    rw [List.getElem_map, List.getElem_range]
    show _ = (st.records.recs[i]?).join
    rw [List.getElem?_eq_getElem h1]
    rfl
  refine ⟨(List.range st.records.cap).filterMap fun i => (st.recAt i).bind Rec.liveId, ?_, ?_, ?_⟩
  · refine List.Nodup.filterMap (fun i j id hi hj => ?_) List.nodup_range
    obtain ⟨r, hr, hri⟩ := Option.bind_eq_some_iff.mp hi
    obtain ⟨q, hq, hqi⟩ := Option.bind_eq_some_iff.mp hj
    exact h.ids i j r q hr hq ((liveId_eq.mp hri).2.trans (liveId_eq.mp hqi).2.symm)
  · intro id
    rw [List.mem_filterMap]
    constructor
    · rintro ⟨i, -, hi⟩
      obtain ⟨r, hr, hri⟩ := Option.bind_eq_some_iff.mp hi
      obtain ⟨hact, hid⟩ := liveId_eq.mp hri
      rw [← hid, (h.tie i r hr).1]
      show some (decide (r.state = .active)) = some true
      rw [hact]
      rfl
    · intro hheard
      rcases h.of_id id with ⟨i, r, hr, hid, h1, -⟩ | ⟨-, h1, -⟩
      · rw [hheard] at h1
        have hact : r.state = .active := of_decide_eq_true (Option.some.inj h1).symm
        refine ⟨i, List.mem_range.mpr (Records.get_lt hr), ?_⟩
        rw [hr]
        exact liveId_eq.mpr ⟨hact, hid⟩
      · rw [hheard] at h1
        cases h1
  · rw [hwf.live, List.length_filterMap_eq_countP, hcount, List.countP_map]
    refine List.countP_congr fun i _ => ?_
    show Records.alive (st.recAt i) = true ↔ _
    cases st.recAt i with
    | none => exact Iff.rfl
    | some r =>
      show decide (r.state = .active) = true ↔ (Rec.liveId r).isSome = true
      unfold Rec.liveId
      cases r.state <;> simp

end told

/-- The hooks told what the records are, while no id came twice. -/
theorem Inv.hooked {A : Ground} (h : Inv A settled st) (hlt : given st.trace < 2 ^ 32) : Hooked st := by
  have ht := h.told hlt
  refine ⟨fun id => ?_, ht.live h.store, fun id => ?_, fun id => ?_, fun id => ?_, ht.ended, ?_⟩
  · rcases ht.of_id id with ⟨i, r, -, -, h1, -⟩ | ⟨-, h1, -⟩
    · rw [h1]
      exact Option.some_ne_none _
    · rw [h1]
      exact Option.some_ne_none _
  · rcases ht.of_id id with ⟨i, r, -, -, -, h2⟩ | ⟨-, -, h2⟩
    · rw [h2]
      exact Option.some_ne_none _
    · rw [h2]
      exact Option.some_ne_none _
  · rw [ht.phase_iff (fun hc => by cases hc) id]
    simp only [status_on]
  · rw [ht.phase_iff (fun hc => by cases hc) id]
    simp only [status_silent]
  · intro id u hadd hnot i r hr hu
    rcases ht.born id u hadd with hrem | ⟨j, q, hq, hid, hqu⟩
    · exact absurd hrem hnot
    · have hij : i = j := h.store.uuids i j r q hr hq (hu.trans hqu.symm)
      subst hij
      rw [hr] at hq
      cases hq
      exact hid

/-- Until the ids start over, the hooks of every run keep their order. -/
theorem hooked_runs (h : Core.init cfg = some st) (es : List Event)
    (hlt : given (st.runs es).trace < 2 ^ 32) : Hooked (st.runs es) :=
  (inv_of_runs h es).hooked hlt

/-- The same node's hooks. -/
theorem hooked_runs_lone : ∃ st, Core.init (lone 1) = some st ∧ Hooked (st.runs [.update 5 2000,
    .datagram {} (some ⟨[10, 0, 0, 2], 7⟩) (encodeBytes { uuid := List.replicate 16 2 }) 6,
    .update 6000000 2000]) := by
  have hinit : Core.init (lone 1) = some ((Core.init (lone 1)).get rfl) := rfl
  exact ⟨_, hinit, hooked_runs hinit _ (by decide +kernel)⟩

end Rant.Discovery
