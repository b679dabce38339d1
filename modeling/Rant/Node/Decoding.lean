import Rant.Node.SchemaGate
/-!
# What a message decodes with

Two nodes reach the same verdict on a writer and a reader, wherever both wires are at hand and
no allocation fails (`verdicts_agree`); and where the delivery map finds the room, a writer that
the reading node admits to a typed topic gets the entry that decodes it (`readVerdict_typed`).

Both rest on what the caches are keyed by. The schemas about have hashes of their own, and none
the 0 of no schema, so an interned schema is the one of its hash, and a view kept is the one of
the two schemas that its hashes name.
-/

namespace Rant.Node

open Rant.Lib
open Rant.Serialize (Schema Bytes compile subset compile_built rebase_view)

/-! ## The property -/

/-- The schemas whose wires are about: no two of one hash, and none of the hash of no schema. -/
def CollisionFree (wires : List Bytes) : Prop :=
  ∀ v ∈ wires, ∀ s, compile v = some s → schemaHash s ≠ 0 ∧
    ∀ w ∈ wires, ∀ s', compile w = some s' → schemaHash s = schemaHash s' → v = w

/-- A schema that is about. -/
structure Known (wires : List Bytes) (s : Schema) : Prop where
  compiled : compile s.wire = some s
  mem : s.wire ∈ wires

/-- The wires an event brings. -/
def SchemaEvent.wires : SchemaEvent → List Bytes
  | .define _ schema => (schema.map (·.1.wire)).toList
  | .reuse _ schema _ _ => (schema.map (·.1.wire)).toList
  | .retype _ schema _ => (schema.map (·.1.wire)).toList
  | .detail _ _ _ wire _ _ => [wire]
  | .reflect _ wire _ => [wire]
  | _ => []

namespace SchemaNode

/-- What a run of events over the wires may come to. -/
def Reached (wires : List Bytes) (s : SchemaNode) : Prop :=
  ∃ n es, (∀ e : SchemaEvent, e ∈ es → ∀ w ∈ e.wires, w ∈ wires) ∧ s = run step (init n) es

/-- What the gate last admitted to a typed topic is decoded with the topic's schema, where it
is the writer's, or with the view of it on the writer's layout. -/
def Resolves (wires : List Bytes) (s : SchemaNode) : Prop :=
  ∀ peer t hash ours, s.admitted peer t = some hash → (s.core.slot t).compiled = some ours →
    (hash = schemaHash ours → s.core.msgSchema peer t = some ours) ∧
      (hash ≠ schemaHash ours → ∃ pub view, Known wires pub ∧ schemaHash pub = hash ∧
        Serialize.rebase ours pub = some view ∧ s.core.msgSchema peer t = some view)

end SchemaNode

/-- The wire of a peer's schema is at hand: it was sent, or it is one of ours, or the schema
was interned before. -/
def SchemaCore.Available (c : SchemaCore) (s : Schema) (wire : Bytes) : Prop :=
  wire = s.wire ∨ (wire = [] ∧ ∃ sl ∈ c.slots, sl.wire = s.wire) ∨
    ∃ e ∈ c.interned, e.parsed = s

/-! ## What is kept -/

section

variable {wires : List Bytes}

variable {s : Schema}

theorem Known.eq_of_hash (hfree : CollisionFree wires) {s' : Schema} (h : Known wires s)
    (h' : Known wires s') (heq : schemaHash s = schemaHash s') : s = s' := by
  have hwire := (hfree s.wire h.mem s h.compiled).2 s'.wire h'.mem s' h'.compiled heq
  have hc := h.compiled
  rw [hwire, h'.compiled] at hc
  exact (Option.some.inj hc).symm

theorem Known.hash_ne_zero (hfree : CollisionFree wires) (h : Known wires s) : schemaHash s ≠ 0 :=
  (hfree s.wire h.mem s h.compiled).1

/-- A topic slot's rows go together. -/
structure SlotOk (wires : List Bytes) (sl : TopicSlot) : Prop where
  typed : ∀ s, sl.compiled = some s → Known wires s ∧ sl.hash = schemaHash s ∧ sl.wire = s.wire
  parked : sl.compiled = none → sl.wire = []
  untyped : sl.use = .live → sl.compiled = none → sl.hash = 0
  unused : sl.use = .unused → sl.hash = 0

/-- What the core keeps is what its keys say. -/
structure CoreOk (wires : List Bytes) (c : SchemaCore) : Prop where
  slots : ∀ sl ∈ c.slots, SlotOk wires sl
  interned : ∀ e ∈ c.interned, Known wires e.parsed ∧ schemaHash e.parsed = e.hash
  binds : ∀ b ∈ c.binds, ∃ pub ours, Known wires pub ∧ Known wires ours ∧
    schemaHash pub = b.writer ∧ schemaHash ours = b.reader ∧
    Serialize.rebase ours pub = some b.rebased
  distinct : Distinct PeerSchema.key c.peerSchemas

/-- The slots and the delivery map stand. -/
structure Kept (c c' : SchemaCore) : Prop where
  slots : c'.slots = c.slots
  map : c'.peerSchemas = c.peerSchemas
  cap : c'.capPeerSchemas = c.capPeerSchemas

theorem Kept.refl (c : SchemaCore) : Kept c c := ⟨rfl, rfl, rfl⟩

variable {c' : SchemaCore}

theorem Kept.trans {c c'' : SchemaCore} (h : Kept c c') (h' : Kept c' c'') : Kept c c'' :=
  ⟨h'.slots.trans h.slots, h'.map.trans h.map, h'.cap.trans h.cap⟩

theorem SlotOk.empty : SlotOk wires {} :=
  ⟨fun _ hs => (by cases hs), fun _ => rfl, fun _ _ => rfl, fun _ => rfl⟩

variable {c : SchemaCore}

theorem CoreOk.slot (h : CoreOk wires c) (t : Nat) : SlotOk wires (c.slot t) := by
  unfold SchemaCore.slot
  rw [List.getD_eq_getElem?_getD]
  cases hs : c.slots[t]? with
  | none => exact SlotOk.empty
  | some sl => exact h.slots sl (List.mem_of_getElem? hs)

/-! ### Interning -/

variable {wire : Bytes}

/-- A wire with bytes is the one sent, or that of a slot. -/
theorem wireFor_mem (h : CoreOk wires c) {hash : Nat} (hw : wire ∈ wires)
    (hne : c.wireFor hash wire ≠ []) : c.wireFor hash wire ∈ wires := by
  unfold SchemaCore.wireFor at hne ⊢
  split
  next hnil =>
    rw [if_pos hnil] at hne
    split
    next sl hfind =>
      rw [hfind] at hne
      have hok := h.slots sl (List.mem_of_find?_eq_some hfind)
      cases hs : sl.compiled with
      | none => exact absurd (hok.parked hs) hne
      | some s =>
        obtain ⟨hknown, -, hwire⟩ := hok.typed s hs
        rw [hwire]
        exact hknown.mem
    next hnone =>
      rw [hnone] at hne
      exact absurd rfl hne
  next => exact hw

/-- An intern answers with the schema of the hash, and keeps it. -/
theorem intern_spec (h : CoreOk wires c) (hash : Nat) (hw : wire ∈ wires)
    (ok : Allocs) :
    CoreOk wires (c.intern hash wire ok).1 ∧ Kept c (c.intern hash wire ok).1 ∧
      ∀ p, (c.intern hash wire ok).2 = some p → Known wires p ∧ schemaHash p = hash := by
  have hnone : CoreOk wires c ∧ Kept c c ∧
      ∀ p, (none : Option Schema) = some p → Known wires p ∧ schemaHash p = hash :=
    ⟨h, Kept.refl c, fun _ hp => (by cases hp)⟩
  unfold SchemaCore.intern
  split
  next e hfind =>
    refine ⟨h, Kept.refl c, fun p hp => ?_⟩
    obtain ⟨hknown, hhash⟩ := h.interned e (List.mem_of_find?_eq_some hfind)
    have hkey : e.hash = hash := by simpa using List.find?_some hfind
    rw [← Option.some.inj hp]
    exact ⟨hknown, hhash.trans hkey⟩
  next =>
    split
    next => exact hnone
    next hne =>
    split
    next => exact hnone
    next p hp =>
    split
    next => exact hnone
    next hhash =>
    rw [ne_eq, not_not] at hhash
    split
    next => exact hnone
    next cap hcap =>
      have hcompile : compile (c.wireFor hash wire) = some p := by
        split at hp
        next => exact hp
        next => cases hp
      have hwire := (compile_built hcompile).1
      have hknown : Known wires p := by
        refine ⟨by rw [hwire]; exact hcompile, ?_⟩
        rw [hwire]
        exact wireFor_mem h hw hne
      refine ⟨⟨h.slots, fun e he => ?_, h.binds, h.distinct⟩, ⟨rfl, rfl, rfl⟩, fun q hq => ?_⟩
      · rcases List.mem_append.mp he with he | he
        · exact h.interned e he
        · rw [List.mem_singleton.mp he]
          exact ⟨hknown, hhash⟩
      · rw [← Option.some.inj hq]
        exact ⟨hknown, hhash⟩

/-- Growth never fails where the allocator grants it. -/
theorem arrayReserve_granted (cap need : Nat) : ∃ cap', arrayReserve cap need true = some cap' := by
  unfold arrayReserve
  split
  next => exact ⟨_, rfl⟩
  next => exact ⟨_, rfl⟩

theorem Known.wire_ne_nil (h : Known wires s) : s.wire ≠ [] := by
  intro hnil
  have hc := h.compiled
  rw [hnil] at hc
  cases hc

/-- A slot that keeps a wire keeps the schema of it. -/
theorem SlotOk.of_wire {sl : TopicSlot} (h : SlotOk wires sl) (hne : sl.wire ≠ []) :
    ∃ s, Known wires s ∧ sl.hash = schemaHash s ∧ sl.wire = s.wire := by
  cases hs : sl.compiled with
  | none => exact absurd (h.parked hs) hne
  | some s => exact ⟨s, h.typed s hs⟩

/-- Where a schema is not interned but at hand, its own wire is the one parsed. -/
theorem wireFor_available (hfree : CollisionFree wires) (h : CoreOk wires c)
    (hs : Known wires s) (hav : c.Available s wire)
    (hnew : c.interned.find? (fun e => decide (e.hash = schemaHash s)) = none) :
    c.wireFor (schemaHash s) wire = s.wire := by
  have hnil := hs.wire_ne_nil
  unfold SchemaCore.wireFor
  rcases hav with heq | ⟨heq, sl, hsl, hwire⟩ | ⟨e, he, heq⟩
  · rw [if_neg (by rw [heq]; exact hnil)]
    exact heq
  · rw [if_pos heq]
    obtain ⟨s₁, hk₁, hh₁, hw₁⟩ := (h.slots sl hsl).of_wire (by rw [hwire]; exact hnil)
    have hsame : s₁ = s := by
      have hc := hk₁.compiled
      rw [← hw₁, hwire, hs.compiled] at hc
      exact (Option.some.inj hc).symm
    split
    next sl' hfind =>
      have hsl' : sl'.hash = schemaHash s ∧ sl'.wire ≠ [] := by simpa using List.find?_some hfind
      obtain ⟨s₂, hk₂, hh₂, hw₂⟩ := (h.slots sl' (List.mem_of_find?_eq_some hfind)).of_wire hsl'.2
      rw [hw₂, hk₂.eq_of_hash hfree hs (hh₂.symm.trans hsl'.1)]
    next hnone =>
      have hno := List.find?_eq_none.mp hnone sl hsl
      refine absurd (decide_eq_true ⟨?_, ?_⟩) hno
      · rw [hh₁, hsame]
      · rw [hwire]
        exact hnil
  · have hno := List.find?_eq_none.mp hnew e he
    have hkey := (h.interned e he).2
    rw [heq] at hkey
    exact absurd (decide_eq_true hkey.symm) hno

/-- With the wire at hand and the memory, a schema is interned. -/
theorem intern_granted (hfree : CollisionFree wires) (h : CoreOk wires c)
    (hs : Known wires s) (hav : c.Available s wire) :
    (c.intern (schemaHash s) wire .granted).2 = some s := by
  unfold SchemaCore.intern
  split
  next e hfind =>
    obtain ⟨hknown, hhash⟩ := h.interned e (List.mem_of_find?_eq_some hfind)
    have hkey : e.hash = schemaHash s := by simpa using List.find?_some hfind
    exact congrArg some (hknown.eq_of_hash hfree hs (hhash.trans hkey))
  next hnew =>
    have hparse : (if Allocs.granted.parse then compile s.wire else none) = some s := hs.compiled
    obtain ⟨cap, hcap⟩ := arrayReserve_granted c.capInterned (c.interned.length + 1)
    have hcap : arrayReserve c.capInterned (c.interned.length + 1) Allocs.granted.intern =
      some cap := hcap
    rw [wireFor_available hfree h hs hav hnew, if_neg hs.wire_ne_nil, hparse]
    dsimp only
    rw [if_neg (not_not.mpr rfl), hcap]

/-! ### Binding -/

/-- A view is the one of the two schemas that its key names. -/
theorem bind_spec (hfree : CollisionFree wires) (h : CoreOk wires c) {ours pub : Schema}
    (ho : Known wires ours) (hp : Known wires pub) (ok : Allocs) :
    CoreOk wires (c.bind (schemaHash pub) ours pub ok).1 ∧
      Kept c (c.bind (schemaHash pub) ours pub ok).1 ∧
      ∀ v, (c.bind (schemaHash pub) ours pub ok).2 = some v →
        Serialize.rebase ours pub = some v := by
  have hnone : CoreOk wires c ∧ Kept c c ∧
      ∀ v, (none : Option Schema) = some v → Serialize.rebase ours pub = some v :=
    ⟨h, Kept.refl c, fun _ hv => (by cases hv)⟩
  unfold SchemaCore.bind
  split
  next b hfind =>
    refine ⟨h, Kept.refl c, fun v hv => ?_⟩
    obtain ⟨pub', ours', hp', ho', hw, hr, hview⟩ := h.binds b (List.mem_of_find?_eq_some hfind)
    have hkey : b.writer = schemaHash pub ∧ b.reader = schemaHash ours := by
      simpa using List.find?_some hfind
    rw [hp'.eq_of_hash hfree hp (hw.trans hkey.1), ho'.eq_of_hash hfree ho (hr.trans hkey.2)] at hview
    rw [← Option.some.inj hv]
    exact hview
  next =>
    split
    next => exact hnone
    next rb hrb =>
    have hrebase : Serialize.rebase ours pub = some rb := by
      split at hrb
      next => exact hrb
      next => cases hrb
    split
    next => exact hnone
    next cap hcap =>
      refine ⟨⟨h.slots, h.interned, fun b hb => ?_, h.distinct⟩, ⟨rfl, rfl, rfl⟩, fun v hv => ?_⟩
      · rcases List.mem_append.mp hb with hb | hb
        · exact h.binds b hb
        · rw [List.mem_singleton.mp hb]
          exact ⟨pub, ours, hp, ho, rfl, rfl, hrebase⟩
      · rw [← Option.some.inj hv]
        exact hrebase

/-- With the memory, a reader that is a subset is bound. -/
theorem bind_granted {ours pub : Schema} (ho : Known wires ours) (hp : Known wires pub)
    (hsub : subset ours pub = true) (hash : Nat) :
    ∃ v, (c.bind hash ours pub .granted).2 = some v := by
  obtain ⟨-, t₀, hbo⟩ := compile_built ho.compiled
  obtain ⟨-, u₀, hbp⟩ := compile_built hp.compiled
  obtain ⟨v, hv, -⟩ := rebase_view hbo hbp ho.compiled hsub
  unfold SchemaCore.bind
  split
  next b hfind => exact ⟨_, rfl⟩
  have hview : (if Allocs.granted.rebase then Serialize.rebase ours pub else none) = some v := hv
  obtain ⟨cap, hcap⟩ := arrayReserve_granted c.capBinds (c.binds.length + 1)
  have hcap : arrayReserve c.capBinds (c.binds.length + 1) Allocs.granted.bind = some cap := hcap
  rw [hview]
  dsimp only
  rw [hcap]
  exact ⟨v, rfl⟩

/-! ### The delivery map -/

/-- The map has an entry for the pair, or room for one, or is granted the room. -/
def MapRoom (c : SchemaCore) (peer t : Nat) (ok : Allocs) : Prop :=
  (∃ e ∈ c.peerSchemas, e.key = (peer, t)) ∨ c.peerSchemas.length < c.capPeerSchemas ∨
    ok.map = true

/-- What a write to the map leaves. -/
structure Mapped (c c' : SchemaCore) (peer t : Nat) : Prop where
  slots : c'.slots = c.slots
  others : ∀ e ∈ c.peerSchemas, e.key ≠ (peer, t) → e ∈ c'.peerSchemas

theorem Kept.mapped {c : SchemaCore} (h : Kept c c') (peer t : Nat) : Mapped c c' peer t :=
  ⟨h.slots, fun e he _ => by rw [h.map]; exact he⟩

variable {t : Nat}

theorem Kept.trans_mapped {c c'' : SchemaCore} {peer : Nat} (h : Kept c c')
    (h' : Mapped c' c'' peer t) : Mapped c c'' peer t :=
  ⟨h'.slots.trans h.slots, fun e he hk => h'.others e (by rw [h.map]; exact he) hk⟩

theorem Kept.room {c : SchemaCore} (h : Kept c c') {peer : Nat} {ok : Allocs}
    (hr : MapRoom c peer t ok) : MapRoom c' peer t ok := by
  unfold MapRoom
  rw [h.map, h.cap]
  exact hr

theorem peerSchemaSet_spec (h : CoreOk wires c) (peer t : Nat) (schema : Option Delivery)
    (ok : Allocs) :
    CoreOk wires (c.peerSchemaSet peer t schema ok) ∧
      Mapped c (c.peerSchemaSet peer t schema ok) peer t ∧
      (schema ≠ none → MapRoom c peer t ok →
        ⟨peer, t, schema⟩ ∈ (c.peerSchemaSet peer t schema ok).peerSchemas) := by
  have hkeys : ∀ e : PeerSchema, PeerSchema.key { e with schema := schema } = e.key := fun _ => rfl
  unfold SchemaCore.peerSchemaSet
  split
  next l hl =>
    obtain ⟨hmap, ⟨x, hx, hpx, hnew⟩, hkept, -⟩ := replaceFirst_some hkeys hl
    refine ⟨⟨h.slots, h.interned, h.binds, h.distinct.of_map hmap⟩, ⟨rfl, fun e he hk => ?_⟩,
      fun _ _ => ?_⟩
    · exact hkept e he (decide_eq_false hk)
    · have hkey : (x.peer, x.topic) = (peer, t) := of_decide_eq_true hpx
      rw [← (Prod.mk.inj hkey).1, ← (Prod.mk.inj hkey).2]
      exact hnew
  next hl =>
    have hfresh : ∀ e ∈ c.peerSchemas, e.key ≠ (peer, t) := fun e he =>
      of_decide_eq_false (replaceFirst_none hl e he)
    split
    next hs =>
      refine ⟨h, ⟨rfl, fun e he _ => he⟩, fun hne _ => ?_⟩
      exact absurd (Option.isNone_iff_eq_none.mp hs) hne
    next =>
    split
    next hcap =>
      refine ⟨h, ⟨rfl, fun e he _ => he⟩, fun _ hroom => ?_⟩
      -- growth fails only where there is no room and none is granted
      unfold arrayReserve at hcap
      rcases hroom with ⟨e, he, hk⟩ | hlt | hok
      · exact absurd hk (hfresh e he)
      · rw [if_pos (Nat.succ_le_of_lt hlt)] at hcap
        cases hcap
      · rw [hok] at hcap
        split at hcap
        next => cases hcap
        next => cases hcap
    next cap hcap =>
      refine ⟨⟨h.slots, h.interned, h.binds, h.distinct.concat hfresh⟩, ⟨rfl, fun e he _ => ?_⟩,
        fun _ _ => List.mem_append_right _ (List.mem_singleton.mpr rfl)⟩
      exact List.mem_append_left _ he

/-! ## Two verdicts on one pair -/

/-- The writing node's verdict on the reader is the reading node's on the writer. -/
theorem verdicts_agree (hfree : CollisionFree wires) {cw cr : SchemaCore} (hcw : CoreOk wires cw)
    (hcr : CoreOk wires cr) {t' : Nat} {ws rs : Option Schema}
    (hws : (cw.slot t).compiled = ws) (hrs : (cr.slot t').compiled = rs) {wireW wireR : Bytes}
    (hr : ∀ s, rs = some s → cw.Available s wireR) (hw : ∀ s, ws = some s → cr.Available s wireW)
    (peer peer' : Nat) :
    (cw.schemaVerdict peer t false (hashOf rs) wireR .granted).2 =
      (cr.schemaVerdict peer' t' true (hashOf ws) wireW .granted).2 := by
  unfold SchemaCore.schemaVerdict
  rw [if_neg Bool.false_ne_true, if_pos rfl]
  unfold SchemaCore.writeVerdict SchemaCore.readVerdict
  rw [hws, hrs]
  cases rs with
  | none =>
    -- a reader without a schema takes anything
    rw [if_pos (show hashOf none = 0 from rfl)]
    dsimp only
    split <;> rfl
  | some r =>
    have hkr := ((hcr.slot t').typed r hrs).1
    have hr0 : hashOf (some r) ≠ 0 := hkr.hash_ne_zero hfree
    rw [if_neg hr0]
    cases ws with
    | none =>
      dsimp only
      rw [if_pos (show hashOf none = 0 from rfl)]
    | some w =>
      have hkw := ((hcw.slot t).typed w hws).1
      have hw0 : hashOf (some w) ≠ 0 := hkw.hash_ne_zero hfree
      dsimp only
      rw [if_neg hw0]
      by_cases heq : schemaHash r = schemaHash w
      · rw [if_pos (show hashOf (some r) = schemaHash w from heq),
          if_pos (show hashOf (some w) = schemaHash r from heq.symm)]
      rw [if_neg (show ¬ hashOf (some r) = schemaHash w from heq),
        if_neg (show ¬ hashOf (some w) = schemaHash r from fun h => heq h.symm)]
      have hsub : (cw.intern (hashOf (some r)) wireR .granted).2 = some r :=
        intern_granted hfree hcw hkr (hr r rfl)
      have hpub : (cr.intern (hashOf (some w)) wireW .granted).2 = some w :=
        intern_granted hfree hcr hkw (hw w rfl)
      rw [hsub, hpub]
      dsimp only
      by_cases hs : subset r w = true
      · -- the view of a subset is there to bind
        obtain ⟨v, hv⟩ := bind_granted (c := (cr.intern (hashOf (some w)) wireW .granted).1)
          hkr hkw hs (hashOf (some w))
        rw [if_neg (by rw [hs]; decide), hv]
        exact hs
      · rw [if_pos (by rw [(Bool.not_eq_true _).mp hs]; rfl)]
        exact (Bool.not_eq_true _).mp hs

/-! ## What is admitted is mapped -/

/-- How a topic's schema reads a writer's messages. -/
def Decodes (wires : List Bytes) (ours : Schema) (hash : Nat) : Delivery → Prop
  | .ours => hash = schemaHash ours
  | .view v => hash ≠ schemaHash ours ∧
      ∃ pub, Known wires pub ∧ schemaHash pub = hash ∧ Serialize.rebase ours pub = some v

/-- An untyped topic: their schema is mapped. -/
theorem readVerdict_untyped (h : CoreOk wires c) (hc : (c.slot t).compiled = none)
    (hw : wire ∈ wires) (peer hash : Nat) (ok : Allocs) :
    CoreOk wires (c.readVerdict peer t hash wire ok).1 ∧
      Mapped c (c.readVerdict peer t hash wire ok).1 peer t := by
  unfold SchemaCore.readVerdict
  rw [hc]
  dsimp only
  split
  next =>
    obtain ⟨hok, hmap, -⟩ := peerSchemaSet_spec h peer t none ok
    exact ⟨hok, hmap⟩
  obtain ⟨hi, hkept, -⟩ := intern_spec h hash hw ok
  obtain ⟨hok, hmap, -⟩ := peerSchemaSet_spec hi peer t
    ((c.intern hash wire ok).2.map Delivery.view) ok
  exact ⟨hok, hkept.trans_mapped hmap⟩

/-- A typed topic: a refusal leaves the map, and what is admitted is mapped where the map has
the room. -/
theorem readVerdict_typed (hfree : CollisionFree wires) (h : CoreOk wires c)
    {ours : Schema} (hc : (c.slot t).compiled = some ours) (hw : wire ∈ wires)
    (peer hash : Nat) (ok : Allocs) :
    CoreOk wires (c.readVerdict peer t hash wire ok).1 ∧
      Mapped c (c.readVerdict peer t hash wire ok).1 peer t ∧
      ((c.readVerdict peer t hash wire ok).2 = false →
        (c.readVerdict peer t hash wire ok).1.peerSchemas = c.peerSchemas) ∧
      ((c.readVerdict peer t hash wire ok).2 = true → MapRoom c peer t ok →
        ∃ d, ⟨peer, t, some d⟩ ∈ (c.readVerdict peer t hash wire ok).1.peerSchemas ∧
          Decodes wires ours hash d) := by
  have hko := ((h.slot t).typed ours hc).1
  have hrefuse : ∀ c', CoreOk wires c' → Kept c c' → CoreOk wires c' ∧ Mapped c c' peer t ∧
      (false = false → c'.peerSchemas = c.peerSchemas) ∧ (false = true → MapRoom c peer t ok →
        ∃ d, ⟨peer, t, some d⟩ ∈ c'.peerSchemas ∧ Decodes wires ours hash d) :=
    fun c' hok hkept => ⟨hok, hkept.mapped peer t, fun _ => hkept.map, fun hf => (by cases hf)⟩
  unfold SchemaCore.readVerdict
  rw [hc]
  dsimp only
  split
  next => exact hrefuse c h (Kept.refl c)
  next hne =>
  split
  next hsame =>
    obtain ⟨hok, hmap, hin⟩ := peerSchemaSet_spec h peer t (some .ours) ok
    refine ⟨hok, hmap, fun hf => (by cases hf), fun _ hroom => ⟨.ours, ?_, hsame⟩⟩
    exact hin (Option.some_ne_none _) hroom
  next hdiff =>
  obtain ⟨hi, hkept, hspec⟩ := intern_spec h hash hw ok
  split
  next => exact hrefuse _ hi hkept
  next pub hpub =>
  obtain ⟨hkp, hhash⟩ := hspec pub hpub
  split
  next => exact hrefuse _ hi hkept
  next =>
  obtain ⟨hb, hkept', hview⟩ := bind_spec hfree hi hko hkp ok
  rw [hhash] at hb hkept' hview
  split
  next => exact hrefuse _ hb (hkept.trans hkept')
  next view hv =>
    obtain ⟨hok, hmap, hin⟩ := peerSchemaSet_spec hb peer t (some (.view view)) ok
    have hk := hkept.trans hkept'
    refine ⟨hok, hk.trans_mapped hmap, fun hf => (by cases hf), fun _ hroom =>
      ⟨.view view, ?_, hdiff, pub, hkp, hhash, hview view hv⟩⟩
    exact hin (Option.some_ne_none _) (hk.room hroom)

/-- The write side allocates, and maps nothing. -/
theorem writeVerdict_spec (h : CoreOk wires c) (hw : wire ∈ wires) (t hash : Nat)
    (ok : Allocs) :
    CoreOk wires (c.writeVerdict t hash wire ok).1 ∧ Kept c (c.writeVerdict t hash wire ok).1 := by
  have hsame : CoreOk wires c ∧ Kept c c := ⟨h, Kept.refl c⟩
  obtain ⟨hi, hkept, -⟩ := intern_spec h hash hw ok
  unfold SchemaCore.writeVerdict
  split
  next => exact hsame
  next =>
  split
  next => exact hsame
  split
  next => exact hsame
  next =>
    dsimp only
    split <;> exact ⟨hi, hkept⟩

end

end Rant.Node
