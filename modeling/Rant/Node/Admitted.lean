import Rant.Node.Decoding
/-!
# What the gate admits

Runs of the schema gate. A topic may be made, retired, taken again and retyped, details may
come late and come twice, peers may go, and any allocation may fail. What is admitted to a typed
topic stays decodable as long as the topic keeps the hash of its schema, and where it does not,
the map and the verdicts are dropped together.

The one gap is the delivery map itself: it is written after the verdict is made, and where it
cannot grow the writer is admitted with no entry (`admitted_unmapped`). Where it finds the room,
messages decode as they should (`gate_decodes`).
-/

namespace Rant.Node

open Rant.Lib
open Rant.Serialize (Schema Bytes compile subset)

namespace SchemaNode

/-! ## An admission without an entry -/

/-- `A { y: u16 }`. -/
def yWire : Bytes := [8, 1, 65, 12, 1, 1, 121, 1]

/-- `A { x: u8, y: u16 }`. -/
def xyWire : Bytes := [8, 1, 65, 12, 2, 1, 120, 0, 1, 121, 1]

/-- A reader's schema. -/
def ySchema : OwnSchema :=
  ⟨{ wire := yWire, name := [65], size := 2, msgMin := 2, nVar := 0, valueRoot := false
     fields := [{ name := [121], size := 2, typeOff := 7, typeLen := 1, next := 1, kind := .u16 }] },
    by decide +kernel⟩

/-- The map's first growth is refused. -/
def noMapRoom : Allocs := ⟨true, true, true, true, false⟩

/-- A topic is made, and a peer's writer of the very same schema is judged. -/
def fullMap : List SchemaEvent :=
  [.define 0 (some ySchema), .detail 7 0 (schemaHash ySchema.1) yWire noMapRoom .granted]

/-- One wire's schema collides with no other. -/
theorem collisionFree_y : CollisionFree [yWire] := by
  intro v hv s hs
  obtain rfl : v = yWire := List.mem_singleton.mp hv
  rw [show compile yWire = some ySchema.1 from ySchema.2] at hs
  rw [← Option.some.inj hs]
  refine ⟨by decide +kernel, fun w hw _ _ _ => ?_⟩
  exact (List.mem_singleton.mp hw).symm

/-- The writer is admitted, and its messages have no schema. -/
theorem admitted_unmapped : CollisionFree [yWire] ∧
    ¬ Resolves [yWire] (run step (init 1) fullMap) := by
  refine ⟨collisionFree_y, fun h => ?_⟩
  have hmsg := (h 7 0 (schemaHash ySchema.1) ySchema.1 (by decide +kernel) (by decide +kernel)).1 rfl
  have hnone : (run step (init 1) fullMap).core.msgSchema 7 0 = none := by decide +kernel
  rw [hnone] at hmsg
  cases hmsg

/-! ## When what is admitted decodes -/

/-- The condition: a detail for a typed topic finds the room in the delivery map. -/
def Sound (s : SchemaNode) : SchemaEvent → Prop
  | .detail peer t _ _ okRead _ =>
    (s.core.slot t).use = .live → (s.core.slot t).compiled ≠ none → MapRoom s.core peer t okRead
  | _ => True

/-- An admission stands: the topic has the hash it had then, and the map an entry that decodes
the writer's messages for it. -/
def Stands (wires : List Bytes) (c : SchemaCore) (peer t hash : Nat) : Prop :=
  ∃ ours d, Known wires ours ∧ (c.slot t).hash = schemaHash ours ∧
    ⟨peer, t, some d⟩ ∈ c.peerSchemas ∧ Decodes wires ours hash d

/-- The invariant. -/
structure Inv (wires : List Bytes) (s : SchemaNode) : Prop where
  core : CoreOk wires s.core
  admitted : ∀ peer t hash, s.admitted peer t = some hash → Stands wires s.core peer t hash

variable {wires : List Bytes} {s : SchemaNode}

/-- What the invariant says. -/
theorem Inv.resolves (hfree : CollisionFree wires) (h : Inv wires s) : s.Resolves wires := by
  intro peer t hash ours hadm hours
  obtain ⟨ours', d, hk', hslot, hmem, hd⟩ := h.admitted peer t hash hadm
  obtain ⟨hk, hhash, -⟩ := (h.core.slot t).typed ours hours
  obtain rfl := hk.eq_of_hash hfree hk' (hhash.symm.trans hslot)
  have hfind : s.core.peerSchemas.find? (fun e => decide (e.key = (peer, t))) =
      some ⟨peer, t, some d⟩ :=
    h.core.distinct.find? (fun _ => decide_eq_true_iff) hmem rfl
  unfold SchemaCore.msgSchema
  rw [hfind]
  cases d with
  | ours => exact ⟨fun _ => hours, fun hne => absurd hd hne⟩
  | view v =>
    obtain ⟨hne, pub, hp, hph, hv⟩ := hd
    exact ⟨fun heq => absurd heq hne, fun _ => ⟨pub, v, hp, hph, hv, rfl⟩⟩

/-! ### Slots -/

/-- A slot after a row is set. -/
theorem slot_set (c : SchemaCore) (t t' : Nat) (sl : TopicSlot) :
    SchemaCore.slot { c with slots := c.slots.set t sl } t' =
      if t' = t ∧ t < c.slots.length then sl else c.slot t' := by
  unfold SchemaCore.slot
  dsimp only
  rw [List.getD_eq_getElem?_getD, List.getD_eq_getElem?_getD, List.getElem?_set]
  by_cases heq : t = t'
  · subst heq
    by_cases hlt : t < c.slots.length
    · rw [if_pos rfl, if_pos hlt, if_pos ⟨rfl, hlt⟩]
      rfl
    · rw [if_pos rfl, if_neg hlt, if_neg fun hc => hlt hc.2,
        List.getElem?_eq_none (Nat.le_of_not_lt hlt)]
  · rw [if_neg heq, if_neg fun hc => heq hc.1.symm]

variable {c : SchemaCore} {t : Nat}

/-- Every slot stays in order when a row is set in order. -/
theorem slots_set (h : CoreOk wires c) {sl : TopicSlot}
    (hsl : SlotOk wires sl) : CoreOk wires { c with slots := c.slots.set t sl } := by
  refine ⟨fun sl' hsl' => ?_, h.interned, h.binds, h.distinct⟩
  rcases List.mem_or_eq_of_mem_set hsl' with hmem | heq
  · exact h.slots sl' hmem
  · rw [heq]
    exact hsl

variable {peer hash : Nat}

/-- An admission reads the hash of its slot and its entry. -/
theorem Stands.congr {c' : SchemaCore} (h : Stands wires c peer t hash)
    (hslot : (c'.slot t).hash = (c.slot t).hash)
    (hmap : ∀ e ∈ c.peerSchemas, e.key = (peer, t) → e ∈ c'.peerSchemas) :
    Stands wires c' peer t hash := by
  obtain ⟨ours, d, hk, hh, hmem, hd⟩ := h
  exact ⟨ours, d, hk, hslot.trans hh, hmap _ hmem rfl, hd⟩

/-- An admission is to a slot with a hash. -/
theorem Stands.hash_ne_zero (hfree : CollisionFree wires)
    (h : Stands wires c peer t hash) : (c.slot t).hash ≠ 0 := by
  obtain ⟨ours, d, hk, hh, -⟩ := h
  rw [hh]
  exact hk.hash_ne_zero hfree

/-- A schema of ours is about. -/
theorem ownSchema_known {schema : Option OwnSchema}
    (hw : ∀ w ∈ (schema.map (·.1.wire)).toList, w ∈ wires) {s : Schema}
    (hs : schema.map (·.1) = some s) : Known wires s := by
  cases schema with
  | none => cases hs
  | some o =>
    rw [← Option.some.inj hs]
    exact ⟨o.2, hw _ (by simp)⟩

/-- A use set and then a row of the same slot is one row set. -/
theorem set_setUse (c : SchemaCore) (t : Nat) (use : SlotUse) (f : TopicSlot → TopicSlot) :
    { c.setUse t use with slots := (c.setUse t use).slots.set t (f ((c.setUse t use).slot t)) } =
      { c with slots := c.slots.set t (f { c.slot t with use := use }) } := by
  unfold SchemaCore.setUse
  dsimp only
  rw [List.set_set, slot_set]
  split
  next => rfl
  next hout =>
    rw [not_and] at hout
    have hlen : c.slots.length ≤ t := Nat.le_of_not_lt (hout rfl)
    rw [List.set_eq_of_length_le hlen, List.set_eq_of_length_le hlen]

/-- A row set under the hash of before keeps what was admitted. -/
theorem Inv.setSlot (h : Inv wires s) {sl : TopicSlot} (hsl : SlotOk wires sl)
    (hsame : ∀ peer hash, s.admitted peer t = some hash → sl.hash = (s.core.slot t).hash) :
    Inv wires { s with core := { s.core with slots := s.core.slots.set t sl } } := by
  refine ⟨slots_set h.core hsl, fun peer t' hash hadm => ?_⟩
  refine (h.admitted peer t' hash hadm).congr ?_ fun e he _ => he
  rw [slot_set]
  split
  next hin =>
    obtain ⟨rfl, -⟩ := hin
    exact hsame peer hash hadm
  next => rfl

/-- Where nothing was admitted, or only to the same hash, a topic may take a slot. -/
theorem Inv.occupy (h : Inv wires s) {schema : Option OwnSchema}
    (hw : ∀ w ∈ (schema.map (·.1.wire)).toList, w ∈ wires)
    (hsame : ∀ peer hash, s.admitted peer t = some hash →
      hashOf (schema.map (·.1)) = (s.core.slot t).hash) : Inv wires (s.occupy t schema) := by
  obtain ⟨os, hos⟩ : ∃ os, os = schema.map (·.1) := ⟨_, rfl⟩
  obtain ⟨sl, hsl⟩ : ∃ sl : TopicSlot, sl = ⟨.live, hashOf os, os.elim [] (·.wire), os⟩ := ⟨_, rfl⟩
  have hok : SlotOk wires sl := by
    rw [hsl]
    cases hc : os with
    | none => exact ⟨fun _ hs => (by cases hs), fun _ => rfl, fun _ _ => rfl, fun hu => (by cases hu)⟩
    | some o =>
      refine ⟨fun s' hs' => ?_, fun hn => (by cases hn), fun _ hn => (by cases hn),
        fun hu => (by cases hu)⟩
      rw [← Option.some.inj hs']
      exact ⟨ownSchema_known hw (hos.symm.trans hc), rfl, rfl⟩
  have heq : s.occupy t schema = { s with core := { s.core with slots := s.core.slots.set t sl } } := by
    rw [hsl, hos]
    exact congrArg (fun c => { s with core := c }) (set_setUse s.core t .live fun sl => { sl with
      compiled := schema.map (·.1)
      hash := hashOf (schema.map (·.1))
      wire := (schema.map (·.1)).elim [] (·.wire) })
  rw [heq]
  refine h.setSlot hok fun peer hash hadm => ?_
  rw [hsl, hos]
  exact hsame peer hash hadm

/-- A slot that is parked keeps its hash. -/
theorem Inv.park (h : Inv wires s) (t : Nat) : Inv wires (s.park t) := by
  obtain ⟨sl, hsl⟩ : ∃ sl : TopicSlot, sl = ⟨.retired, (s.core.slot t).hash, [], none⟩ := ⟨_, rfl⟩
  have hok : SlotOk wires sl := by
    rw [hsl]
    exact ⟨fun _ hs => (by cases hs), fun _ => rfl, fun hu => (by cases hu), fun hu => (by cases hu)⟩
  have heq : s.park t = { s with core := { s.core with slots := s.core.slots.set t sl } } := by
    rw [hsl]
    exact congrArg (fun c => { s with core := c }) (set_setUse s.core t .retired fun sl => { sl with
      compiled := none, wire := [] })
  rw [heq]
  exact h.setSlot hok fun _ _ _ => by rw [hsl]

/-- What was judged of a slot goes when it is bound to something else. -/
theorem Inv.rebind (h : Inv wires s) (t : Nat) : Inv wires (s.rebind t) := by
  refine ⟨⟨h.core.slots, h.core.interned, h.core.binds, h.core.distinct.swapRemove _⟩,
    fun peer t' hash hadm => ?_⟩
  have hadm : (if t' = t then none else s.admitted peer t') = some hash := hadm
  split at hadm
  next => cases hadm
  next hne =>
    refine (h.admitted peer t' hash hadm).congr rfl fun e he hk => mem_swapRemove.mpr ⟨he, ?_⟩
    rw [(Prod.mk.inj hk).2]
    exact decide_eq_false hne

/-- What was judged of a peer goes with it. -/
theorem Inv.forget (h : Inv wires s) (peer : Nat) : Inv wires (s.step (.forget peer)) := by
  refine ⟨⟨h.core.slots, h.core.interned, h.core.binds, h.core.distinct.swapRemove _⟩,
    fun peer' t hash hadm => ?_⟩
  have hadm : (if peer' = peer then none else s.admitted peer' t) = some hash := hadm
  split at hadm
  next => cases hadm
  next hne =>
    refine (h.admitted peer' t hash hadm).congr rfl fun e he hk => mem_swapRemove.mpr ⟨he, ?_⟩
    rw [(Prod.mk.inj hk).1]
    exact decide_eq_false hne

/-! ### Judging -/

theorem slot_congr {c' : SchemaCore} (h : c'.slots = c.slots) (t : Nat) : c'.slot t = c.slot t := by
  unfold SchemaCore.slot
  rw [h]

/-- An admission of another pair stands over a write to the map. -/
theorem Stands.mapped {c' : SchemaCore} {peer' t' : Nat}
    (h : Stands wires c peer' t' hash) (hm : Mapped c c' peer t) (hne : (peer', t') ≠ (peer, t)) :
    Stands wires c' peer' t' hash := by
  refine h.congr (by rw [slot_congr hm.slots]) fun e he hk => ?_
  exact hm.others e he (by rw [hk]; exact hne)

theorem Inv.judge (hfree : CollisionFree wires) (h : Inv wires s)
    {wire : Bytes} {ok : Allocs} (hw : wire ∈ wires) (hlive : (s.core.slot t).use = .live)
    (hroom : (s.core.slot t).compiled ≠ none → MapRoom s.core peer t ok) :
    Inv wires (s.judge peer t hash wire ok) := by
  cases hc : (s.core.slot t).compiled with
  | none =>
    obtain ⟨hok, hmap⟩ := readVerdict_untyped h.core hc hw peer hash ok
    refine ⟨hok, fun peer' t' hash' hadm => ?_⟩
    -- an untyped topic admits to nothing typed, and was admitted to nothing
    have hadm : (if peer' = peer ∧ t' = t ∧ (s.core.readVerdict peer t hash wire ok).2 ∧
        (s.core.slot t).compiled.isSome then some hash else s.admitted peer' t') = some hash' := hadm
    rw [hc, if_neg fun hall => Bool.false_ne_true hall.2.2.2] at hadm
    have hstands := h.admitted peer' t' hash' hadm
    refine hstands.mapped hmap fun heq => ?_
    rw [(Prod.mk.inj heq).2] at hstands
    apply hstands.hash_ne_zero hfree
    exact (h.core.slot t).untyped hlive hc
  | some ours =>
    obtain ⟨hok, hmap, hrefused, hadmitted⟩ :=
      readVerdict_typed hfree h.core hc hw peer hash ok
    refine ⟨hok, fun peer' t' hash' hadm => ?_⟩
    have hgot : (if peer' = peer ∧ t' = t ∧ (s.core.readVerdict peer t hash wire ok).2 ∧
        (s.core.slot t).compiled.isSome then some hash else s.admitted peer' t') = some hash' := hadm
    split at hgot
    next hall =>
      obtain ⟨rfl, rfl, hv, -⟩ := hall
      obtain ⟨d, hmem, hd⟩ := hadmitted hv (hroom (by rw [hc]; exact Option.some_ne_none _))
      obtain ⟨hk, hhash, -⟩ := (h.core.slot t').typed ours hc
      rw [← Option.some.inj hgot]
      refine ⟨ours, d, hk, ?_, hmem, hd⟩
      rw [← hhash]
      exact congrArg TopicSlot.hash (slot_congr hmap.slots t')
    next hnot =>
      have hstands := h.admitted peer' t' hash' hgot
      cases hv : (s.core.readVerdict peer t hash wire ok).2 with
      | false =>
        refine hstands.congr (congrArg TopicSlot.hash (slot_congr hmap.slots t')) fun e he _ => ?_
        have hsame : (s.judge peer t hash wire ok).core.peerSchemas = s.core.peerSchemas :=
          hrefused hv
        rw [hsame]
        exact he
      | true =>
        refine hstands.mapped hmap fun heq => hnot ?_
        rw [hv, hc]
        exact ⟨(Prod.mk.inj heq).1, (Prod.mk.inj heq).2, rfl, rfl⟩

/-- What stands over slots and map. -/
theorem Inv.kept (h : Inv wires s) (hc : CoreOk wires c) (hk : Kept s.core c) :
    Inv wires { s with core := c } := by
  refine ⟨hc, fun peer t hash hadm => ?_⟩
  refine (h.admitted peer t hash hadm).congr (by rw [slot_congr hk.slots]) fun e he _ => ?_
  rw [hk.map]
  exact he

/-! ### Steps -/

/-- Every event under the condition. -/
theorem Inv.step (hfree : CollisionFree wires) (h : Inv wires s) (e : SchemaEvent)
    (hw : ∀ w ∈ e.wires, w ∈ wires) (hsound : s.Sound e) : Inv wires (s.step e) := by
  cases e with
  | define t schema =>
    unfold SchemaNode.step
    dsimp only
    split
    next huse =>
      -- nothing is admitted to an unused slot
      refine h.occupy hw fun peer hash hadm => ?_
      have hne := (h.admitted peer t hash hadm).hash_ne_zero hfree
      exact absurd ((h.core.slot t).unused huse) hne
    next => exact h
  | retire t =>
    unfold SchemaNode.step
    dsimp only
    split
    next => exact h.park t
    next => exact h
  | reuse t schema same ok =>
    unfold SchemaNode.step
    dsimp only
    split
    next =>
      by_cases hch : (!same || hashOf (schema.map (·.1)) != (s.core.slot t).hash) = true
      · rw [if_pos hch]
        refine (h.rebind t).occupy hw fun peer hash hadm => ?_
        have hadm : (if t = t then none else s.admitted peer t) = some hash := hadm
        rw [if_pos rfl] at hadm
        cases hadm
      · rw [if_neg hch]
        refine h.occupy hw fun peer hash _ => ?_
        rw [Bool.not_eq_true, Bool.or_eq_false_iff] at hch
        exact bne_eq_false_iff_eq.mp hch.2
    next => exact h
  | retype t schema ok =>
    unfold SchemaNode.step
    dsimp only
    split
    next =>
      split
      next =>
        refine ((h.park t).rebind t).occupy hw fun peer hash hadm => ?_
        have hadm : (if t = t then none else s.admitted peer t) = some hash := hadm
        rw [if_pos rfl] at hadm
        cases hadm
      next => exact h.park t
    next => exact h
  | migrate n =>
    refine ⟨⟨fun sl hsl => ?_, h.core.interned, h.core.binds, h.core.distinct⟩,
      fun peer t hash hadm => ?_⟩
    · rcases List.mem_append.mp hsl with hsl | hsl
      · exact h.core.slots sl hsl
      · rw [List.eq_of_mem_replicate hsl]
        exact SlotOk.empty
    · refine (h.admitted peer t hash hadm).congr (congrArg TopicSlot.hash ?_) fun e he _ => he
      show (s.core.slots ++ List.replicate (n - s.core.slots.length) ({} : TopicSlot)).getD t {} =
        s.core.slots.getD t {}
      rw [List.getD_eq_getElem?_getD, List.getD_eq_getElem?_getD]
      rcases Nat.lt_or_ge t s.core.slots.length with hlt | hge
      · rw [List.getElem?_append_left hlt]
      · rw [List.getElem?_append_right hge, List.getElem?_replicate, List.getElem?_eq_none hge]
        split <;> rfl
  | detail peer t hash wire okRead okWrite =>
    have hwire : wire ∈ wires := hw wire (List.mem_singleton.mpr rfl)
    unfold SchemaNode.step
    dsimp only
    split
    next hlive =>
      have hj : Inv wires (s.judge peer t hash wire okRead) :=
        h.judge hfree hwire hlive (hsound hlive)
      obtain ⟨hok, hkept⟩ := writeVerdict_spec hj.core hwire t hash okWrite
      exact hj.kept hok hkept
    next => exact h
  | reflect hash wire ok =>
    unfold SchemaNode.step
    dsimp only
    split
    next => exact h
    next =>
      obtain ⟨hok, hkept, -⟩ := intern_spec h.core hash (hw wire (List.mem_singleton.mpr rfl)) ok
      exact h.kept hok hkept
  | forget peer => exact h.forget peer

theorem Inv.init (wires : List Bytes) (n : Nat) : Inv wires (init n) := by
  refine ⟨⟨fun sl hsl => ?_, fun _ he => absurd he List.not_mem_nil,
    fun _ hb => absurd hb List.not_mem_nil, List.Pairwise.nil⟩, fun _ _ _ hadm => (by cases hadm)⟩
  rw [List.eq_of_mem_replicate hsl]
  exact SlotOk.empty

/-- The core reads no admission. -/
theorem step_core (c : SchemaCore) (a b : Nat → Nat → Option Nat) (e : SchemaEvent) :
    (step ⟨c, a⟩ e).core = (step ⟨c, b⟩ e).core := by
  cases e with
  | migrate n => rfl
  | forget peer => rfl
  | reuse t schema same ok =>
    unfold step
    dsimp only
    split
    next => split <;> rfl
    next => rfl
  | retype t schema ok =>
    unfold step
    dsimp only
    split
    next => split <;> rfl
    next => rfl
  | _ =>
    unfold step
    dsimp only
    split <;> rfl

/-- The caches stay in order at every event, whatever the map has room for. -/
theorem core_step (hfree : CollisionFree wires) (h : CoreOk wires s.core) (e : SchemaEvent)
    (hw : ∀ w ∈ e.wires, w ∈ wires) : CoreOk wires (s.step e).core := by
  have hbare : Inv wires ⟨s.core, fun _ _ => none⟩ := ⟨h, fun _ _ _ hadm => (by cases hadm)⟩
  rw [show s = ⟨s.core, s.admitted⟩ from rfl, step_core s.core s.admitted fun _ _ => none]
  cases e with
  | detail peer t hash wire okRead okWrite =>
    have hwire : wire ∈ wires := hw wire (List.mem_singleton.mpr rfl)
    have hread : CoreOk wires (s.core.readVerdict peer t hash wire okRead).1 := by
      cases hc : (s.core.slot t).compiled with
      | none => exact (readVerdict_untyped h hc hwire peer hash okRead).1
      | some ours => exact (readVerdict_typed hfree h hc hwire peer hash okRead).1
    unfold step
    dsimp only
    split
    next => exact (writeVerdict_spec hread hwire t hash okWrite).1
    next => exact h
  | _ => exact (hbare.step hfree _ hw trivial).core

theorem Reached.core (hfree : CollisionFree wires) (h : Reached wires s) : CoreOk wires s.core := by
  obtain ⟨n, es, hes, rfl⟩ := h
  exact run_invariant_along (fun s => CoreOk wires s.core)
    (fun s e hs he => core_step hfree hs e he) es (init n) (Inv.init wires n).core
    (along_of_forall (init n) hes)

/-- The two verdicts on a pair agree, and in every run whose details for typed topics find the
room in the map, what is admitted decodes. -/
theorem gate_decodes (wires : List Bytes) (hfree : CollisionFree wires) :
    (∀ writer reader : SchemaNode, Reached wires writer → Reached wires reader →
      ∀ (t t' : Nat) (wireW wireR : Bytes),
        (∀ w, (writer.core.slot t).compiled = some w → reader.core.Available w wireW) →
        (∀ r, (reader.core.slot t').compiled = some r → writer.core.Available r wireR) →
        ∀ peer peer' : Nat,
          (writer.core.schemaVerdict peer t false (hashOf (reader.core.slot t').compiled) wireR
            .granted).2 =
          (reader.core.schemaVerdict peer' t' true (hashOf (writer.core.slot t).compiled) wireW
            .granted).2) ∧
    ∀ (n : Nat) (es : List SchemaEvent), (∀ e ∈ es, ∀ w ∈ e.wires, w ∈ wires) →
      Along step Sound (init n) es → (run step (init n) es).Resolves wires := by
  constructor
  · intro writer reader hwriter hreader t t' wireW wireR hw hr peer peer'
    exact verdicts_agree hfree (hwriter.core hfree) (hreader.core hfree) rfl rfl hr hw peer peer'
  · intro n es hes hsound
    have hinv := run_invariant_along (Inv wires)
      (fun s e hs he => hs.step hfree e he.1 he.2) es (init n) (Inv.init wires n)
      ((along_of_forall (init n) hes).and hsound)
    exact hinv.resolves hfree

/-- A writer's schema, wider than the reader's. -/
def xySchema : Schema :=
  { wire := xyWire, name := [65], size := 3, msgMin := 3, nVar := 0, valueRoot := false
    fields := [{ name := [120], size := 1, typeOff := 7, typeLen := 1, next := 1 },
      { name := [121], offset := 1, size := 2, typeOff := 10, typeLen := 1, next := 2,
        kind := .u16 }] }

/-- Two wires' schemas that do not collide. -/
theorem collisionFree_xy : CollisionFree [yWire, xyWire] := by
  have hy : compile yWire = some ySchema.1 := ySchema.2
  have hxy : compile xyWire = some xySchema := by decide +kernel
  have hne : schemaHash ySchema.1 ≠ schemaHash xySchema := by decide +kernel
  intro v hv s hs
  rcases List.mem_cons.mp hv with rfl | hv
  · rw [hy] at hs
    obtain rfl := Option.some.inj hs
    refine ⟨by decide +kernel, fun w hw s' hs' heq => ?_⟩
    rcases List.mem_cons.mp hw with rfl | hw
    · rfl
    · rw [List.mem_singleton.mp hw, hxy] at hs'
      obtain rfl := Option.some.inj hs'
      exact absurd heq hne
  · obtain rfl : v = xyWire := List.mem_singleton.mp hv
    rw [hxy] at hs
    obtain rfl := Option.some.inj hs
    refine ⟨by decide +kernel, fun w hw s' hs' heq => ?_⟩
    rcases List.mem_cons.mp hw with rfl | hw
    · rw [hy] at hs'
      obtain rfl := Option.some.inj hs'
      exact absurd heq.symm hne
    · exact (List.mem_singleton.mp hw).symm

/-- A topic is made, and a peer's writer of more fields is judged. -/
def wider : List SchemaEvent :=
  [.define 0 (some ySchema), .detail 7 0 (schemaHash xySchema) xyWire .granted .granted]

/-- Its messages decode with the reader's fields on its layout. -/
theorem gate_decodes_wider : (run step (init 1) wider).Resolves [yWire, xyWire] ∧
    (run step (init 1) wider).core.msgSchema 7 0 = Serialize.rebase ySchema.1 xySchema ∧
    ((run step (init 1) wider).core.msgSchema 7 0).isSome := by
  refine ⟨(gate_decodes _ collisionFree_xy).2 1 wider ?_ ?_, by decide +kernel, by decide +kernel⟩
  · intro e he w hw
    rcases List.mem_cons.mp he with rfl | he
    · rw [List.mem_singleton.mp hw]
      exact List.mem_cons_self
    · rw [List.mem_singleton.mp he] at hw
      rw [List.mem_singleton.mp hw]
      exact List.mem_cons_of_mem _ List.mem_cons_self
  · exact ⟨trivial, fun _ _ => Or.inr (Or.inr rfl), trivial⟩

end SchemaNode

end Rant.Node
