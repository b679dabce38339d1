import Rant.Discovery.Judges
import Rant.Discovery.Edits
/-!
# Sources

`i_rant_discovery_id_for_addr` says which peer a datagram is from. A record answers for its
locator and, at its data port, for the recent paths of its slot, so the lookup is right where no
record answers for an address that another peer announced from since. A new uuid takes the
locator it announces from: whoever held it is evicted. A known one does not, and there two
records come to hold one locator.

`Sourced` is what a run keeps: no record answers for an endpoint that another uuid announced from
since, and every locator is held once. All but a datagram of a record is a chain of writes, and
such a chain leaves `Fewer` locators and paths than there were (`Edit.fewer`). A datagram gives its
record one locator and its slot one path, both the source's (`Sourced.hear`), so the step is left
with what the event brings: `Clear` asks that the source be nobody else's, or be taken from them.
-/

namespace Rant.Discovery

open Rant.Lib
open Rant.Transport (Bytes)

/-- The slot of a record has a path, heard at a time. -/
def Core.Heard (st : Core) (x : Rec) (ip : Bytes) (t : Nat) : Prop :=
  ∃ s slot, x.slot = some s ∧ st.slots[s]? = some slot ∧ (ip, t) ∈ slot.paths

/-- A record answers for its locator, and at its data port for the recent paths of its slot. -/
def Core.Answers (st : Core) (x : Rec) (a : Addr) : Prop :=
  x.addr = a ∨ x.addr.port = a.port ∧ ∃ t, st.Heard x a.ip t ∧ since st.now t ≤ st.cfg.interval * 3

variable {st : Core}

/-! ## What a write leaves of it -/

/-- After some writes every record was there, at its locator, with the paths it has now, or is
fresh and has neither. -/
def Fewer (st st' : Core) : Prop :=
  ∀ i x', st'.recAt i = some x' →
    (x'.addr = {} ∧ ∀ ip t, ip ≠ [] → ¬ st'.Heard x' ip t) ∨
      ∃ x, st.recAt i = some x ∧ x.uuid = x'.uuid ∧ x.addr = x'.addr ∧
        ∀ ip t, ip ≠ [] → st'.Heard x' ip t → st.Heard x ip t

theorem Fewer.refl (st : Core) : Fewer st st :=
  fun _ x hx => Or.inr ⟨x, hx, rfl, rfl, fun _ _ _ h => h⟩

variable {b : Core}

variable {a : Core}

/-- Fewer than fewer. -/
theorem Fewer.trans {c : Core} (h : Fewer a b) (g : Fewer b c) : Fewer a c := by
  intro i z hz
  rcases g i z hz with hfresh | ⟨y, hy, hyz, hyaddr, hyheard⟩
  · exact Or.inl hfresh
  · rcases h i y hy with ⟨haddr, hnone⟩ | ⟨x, hx, hxy, hxaddr, hxheard⟩
    · exact Or.inl ⟨hyaddr.symm.trans haddr, fun ip t hip ht => hnone ip t hip (hyheard ip t hip ht)⟩
    · exact Or.inr ⟨x, hx, hxy.trans hyz, hxaddr.trans hyaddr,
        fun ip t hip ht => hxheard ip t hip (hyheard ip t hip ht)⟩

variable {st' : Core}

/-- The slots keep their paths or are fresh, and a record was there, at its locator and in its
slot or a fresh one, or is fresh and has none. -/
theorem Fewer.of (hslots : ∀ (s : Nat) (slot' : Slot), st'.slots[s]? = some slot' →
      (∃ slot, st.slots[s]? = some slot ∧ slot.paths = slot'.paths) ∨
        slot'.paths = List.replicate 4 ([], 0))
    (hrecs : ∀ (i : Nat) (x' : Rec), st'.recAt i = some x' → x'.addr = {} ∧ x'.slot = none ∨
      ∃ x, st.recAt i = some x ∧ x.uuid = x'.uuid ∧ x.addr = x'.addr ∧
        (x'.slot = x.slot ∨ ∀ (s : Nat) (slot' : Slot), x'.slot = some s →
          st'.slots[s]? = some slot' → slot'.paths = List.replicate 4 ([], 0))) :
    Fewer st st' := by
  intro i x' hx'
  rcases hrecs i x' hx' with ⟨haddr, hnone⟩ | ⟨x, hx, huuid, haddr, hslot⟩
  · refine Or.inl ⟨haddr, ?_⟩
    rintro ip t - ⟨s, slot, hs, -⟩
    exact absurd (hs.symm.trans hnone) (Option.some_ne_none s)
  · refine Or.inr ⟨x, hx, huuid, haddr, ?_⟩
    rintro ip t hip ⟨s, slot', hs, hget, hmem⟩
    have hkept : slot'.paths ≠ List.replicate 4 ([], 0) := by
      intro hpaths
      rw [hpaths] at hmem
      exact hip (Prod.ext_iff.mp (List.eq_of_mem_replicate hmem)).1
    rcases hslot with hsame | hfresh
    · rcases hslots s slot' hget with ⟨slot, hget', hpaths⟩ | hpaths
      · exact ⟨s, slot, hsame ▸ hs, hget', hpaths ▸ hmem⟩
      · exact absurd hpaths hkept
    · exact absurd (hfresh s slot' hs hget) hkept

/-- The records are all that is written, but for whose they are, their locators and slots. -/
theorem Fewer.recs (hs : st'.slots = st.slots)
    (hrecs : ∀ i x', st'.recAt i = some x' → ∃ x, st.recAt i = some x ∧ x.uuid = x'.uuid ∧
      x.addr = x'.addr ∧ (x'.slot = x.slot ∨ x'.slot = none)) : Fewer st st' := by
  refine Fewer.of (fun s slot' hget => Or.inl ⟨slot', by rw [← hs]; exact hget, rfl⟩) fun i x' hx' => ?_
  obtain ⟨x, hx, huuid, haddr, hslot⟩ := hrecs i x' hx'
  refine Or.inr ⟨x, hx, huuid, haddr, hslot.imp_right fun hnone s _ hsome => ?_⟩
  exact absurd (hsome.symm.trans hnone) (Option.some_ne_none s)

/-- Debts name no source. -/
theorem Fewer.owes {records : Records} (h : Records.Owes st.records records)
    (hr : st'.records = records) (hs : st'.slots = st.slots) : Fewer st st' := by
  refine Fewer.recs hs fun i x' hx' => ?_
  have hget : records.get i = some x' := by
    rw [← hr]
    exact hx'
  rcases h.get i with ⟨-, hnone⟩ | ⟨x, owed, due, hx, hx''⟩
  · exact absurd (hget.symm.trans hnone) (Option.some_ne_none x')
  · have heq := hx''.symm.trans hget
    cases heq
    exact ⟨x, hx, rfl, rfl, Or.inl rfl⟩

/-- A write that keeps a record's uuid and locator, and gives it no slot. -/
theorem Fewer.modRec (st : Core) (i : Nat) {f : Rec → Rec} (hf : ∀ x, (f x).uuid = x.uuid ∧
    (f x).addr = x.addr ∧ ((f x).slot = x.slot ∨ (f x).slot = none)) : Fewer st (st.modRec i f) := by
  refine Fewer.recs rfl fun j x' hx' => ?_
  rw [Core.recAt_modRec] at hx'
  split at hx'
  next =>
    obtain ⟨x, hx, rfl⟩ := Option.map_eq_some_iff.mp hx'
    exact ⟨x, hx, (hf x).1.symm, (hf x).2.1.symm, (hf x).2.2⟩
  next => exact ⟨x', hx', rfl, rfl, Or.inl rfl⟩

theorem Fewer.rest (hr : st'.records = st.records) (hs : st'.slots = st.slots) :
    Fewer st st' :=
  Fewer.owes (Records.Owes.refl st.records) hr hs

theorem fewer_ask (st : Core) (i : Nat) (bits : Owed) (now : Nat) :
    Fewer st (st.ask i bits now) := by
  rcases st.ask_cases i bits now with h | h | h <;> rw [h]
  · exact Fewer.refl st
  · exact Fewer.owes (Records.owe_owes st.records i bits now) rfl rfl
  · have hmod := Fewer.modRec st i
      (f := fun x => { x with askTries := if x.askMissed then 1 else askTriesMax })
      fun _ => ⟨rfl, rfl, Or.inl rfl⟩
    exact hmod.trans (Fewer.owes (Records.owe_owes _ i bits now) rfl rfl)

theorem fewer_refetchDone (st : Core) (i : Nat) : Fewer st (st.refetchDone i) := by
  have hmod := Fewer.modRec st i (f := fun x => { x with refetch := false })
    fun _ => ⟨rfl, rfl, Or.inl rfl⟩
  rcases st.refetchDone_cases i with h | h | h <;> rw [h]
  · exact Fewer.refl st
  · exact hmod
  · exact hmod.trans (Fewer.rest rfl rfl)

theorem fewer_askSent (st : Core) (i now : Nat) : Fewer st (st.askSent i now) := by
  have hnote : Fewer st (st.noteAsk (.sent i now)) := Fewer.rest rfl rfl
  rcases st.askSent_cases i now with h | ⟨st', rfl, h⟩ | ⟨st', rfl, h⟩
  · rw [h]
    exact Fewer.refl st
  · rw [h]
    have hmod := hnote.trans (Fewer.modRec _ i (f := fun x => { x with askTries := x.askTries - 1 })
      fun _ => ⟨rfl, rfl, Or.inl rfl⟩)
    exact hmod.trans (Fewer.owes (Records.requeue_owes _ i _) rfl rfl)
  · have hmiss := hnote.trans (Fewer.modRec _ i (f := fun x => { x with askMissed := true })
      fun _ => ⟨rfl, rfl, Or.inl rfl⟩)
    have hset : Fewer st (((st.noteAsk (.sent i now)).modRec i fun x =>
        { x with askMissed := true }).settle i oweAsk) :=
      hmiss.trans (Fewer.owes (Records.settle_owes _ i oweAsk) rfl rfl)
    rcases h with h | h <;> rw [h]
    · exact hset
    · exact hset.trans (fewer_refetchDone _ i)

variable {t : Nat}

theorem getElem?_modSlot {s : Nat} {f : Slot → Slot} {slot' : Slot}
    (h : (st.modSlot s f).slots[t]? = some slot') :
    ∃ slot, st.slots[t]? = some slot ∧ slot' = if s = t then f slot else slot := by
  have hmod : (st.slots.modify s f)[t]? = some slot' := h
  rw [List.getElem?_modify, Option.map_eq_map, Option.map_eq_some_iff] at hmod
  obtain ⟨slot, hslot, rfl⟩ := hmod
  refine ⟨slot, hslot, ?_⟩
  split <;> rfl

/-- A slot bound anew has no path. -/
theorem fewer_slotBind (st : Core) (s i : Nat) : Fewer st (st.slotBind s i) := by
  have hreset : ∀ t slot', (st.slotBind s i).slots[t]? = some slot' →
      (s = t ∧ slot'.paths = List.replicate 4 ([], 0)) ∨ st.slots[t]? = some slot' := by
    intro t slot' hget
    obtain ⟨slot, hslot, rfl⟩ := getElem?_modSlot
      (f := fun slot => { blobCap := slot.blobCap, holder := some i }) hget
    by_cases hst : s = t
    · rw [if_pos hst]
      exact Or.inl ⟨hst, rfl⟩
    · rw [if_neg hst]
      exact Or.inr hslot
  refine Fewer.of (fun t slot' hget => ?_) fun j x' hx' => Or.inr ?_
  · rcases hreset t slot' hget with ⟨-, hpaths⟩ | hsame
    · exact Or.inr hpaths
    · exact Or.inl ⟨slot', hsame, rfl⟩
  · have hmod := Core.recAt_modRec (st.modSlot s fun slot => { blobCap := slot.blobCap, holder := some i })
      i (fun x => { x with slot := some s, metaVersion := 0, want := .no, refetch := false }) j
    have hx'' := hmod.symm.trans hx'
    split at hx''
    next hj =>
      obtain ⟨x, hx, rfl⟩ := Option.map_eq_some_iff.mp hx''
      refine ⟨x, hx, rfl, rfl, Or.inr fun t slot' ht hget => ?_⟩
      cases ht
      rcases hreset s slot' hget with ⟨-, hpaths⟩ | hsame
      · exact hpaths
      · obtain ⟨slot, hslot, rfl⟩ := getElem?_modSlot
          (f := fun slot => { blobCap := slot.blobCap, holder := some i }) hget
        rw [if_pos rfl]
    next => exact ⟨x', hx'', rfl, rfl, Or.inl rfl⟩

/-- No write but a datagram's gives a record a path or a locator. -/
theorem Edit.fewer (h : Edit a b) : Fewer a b := by
  cases h with
  | rest hr hs _ _ => exact Fewer.rest hr hs
  | modRec i f hf =>
    refine Fewer.modRec a i fun x => ⟨?_, ?_, (hf x).2⟩
    · exact congrArg (fun b => b.1) (hf x).1
    · exact congrArg (fun b => b.2.2.1) (hf x).1
  | once i => exact Fewer.modRec a i fun _ => ⟨rfl, rfl, Or.inl rfl⟩
  | modSlot s f hf =>
    refine Fewer.of (fun t slot' hget => ?_) fun i x' hx' => Or.inr ⟨x', hx', rfl, rfl, Or.inl rfl⟩
    obtain ⟨slot, hslot, rfl⟩ := getElem?_modSlot hget
    refine Or.inl ⟨slot, hslot, ?_⟩
    split
    next => exact (hf slot).symm
    next => rfl
  | slotBind s i => exact fewer_slotBind a s i
  | setState i state =>
    refine Fewer.recs rfl fun j x' hx' => ?_
    have hget : (a.records.setState i state).get j = some x' := hx'
    rw [Records.get_setState] at hget
    split at hget
    next =>
      obtain ⟨x, hx, rfl⟩ := Option.map_eq_some_iff.mp hget
      exact ⟨x, hx, rfl, rfl, Or.inl rfl⟩
    next => exact ⟨x', hget, rfl, rfl, Or.inl rfl⟩
  | settle i bits => exact Fewer.owes (Records.settle_owes a.records i bits) rfl rfl
  | oweReply i due => exact Fewer.owes (Records.owe_owes a.records i Discovery.oweReply due) rfl rfl
  | ask i bits now _ => exact fewer_ask a i bits now
  | askSent i now _ => exact fewer_askSent a i now
  | remove i =>
    refine Fewer.recs rfl fun j x hx => ?_
    rcases Records.get_remove a.records i j with ⟨hnone, -⟩ | ⟨-, hsame⟩
    · exact absurd (hnone.symm.trans hx) (Option.some_ne_none x).symm
    · exact ⟨x, hsame.symm.trans hx, rfl, rfl, Or.inl rfl⟩
  | add mem uuid =>
    refine Fewer.of (fun s slot' hget => Or.inl ⟨slot', hget, rfl⟩) fun i x' hx' => ?_
    rcases get_add hx' with hsame | ⟨id, rfl⟩
    · exact Or.inr ⟨x', hsame, rfl, rfl, Or.inl rfl⟩
    · exact Or.inl ⟨rfl, rfl⟩
  | grow cfg _ max n =>
    refine Fewer.of (fun s slot' hget => ?_) fun i x' hx' => Or.inr ⟨x', hx', rfl, rfl, Or.inl rfl⟩
    have hget' : (a.slots ++ List.replicate n (Slot.reset cfg))[s]? = some slot' := hget
    by_cases hs : s < a.slots.length
    · rw [List.getElem?_append_left hs] at hget'
      exact Or.inl ⟨slot', hget', rfl⟩
    rw [List.getElem?_append_right (Nat.le_of_not_lt hs), List.getElem?_replicate] at hget'
    split at hget'
    next =>
      cases hget'
      exact Or.inr rfl
    next => cases hget'

/-- So no chain of them does. -/
theorem Edits.fewer (h : Edits a b) : Fewer a b := by
  induction h with
  | refl => exact Fewer.refl a
  | tail _ hlast ih => exact ih.trans hlast.fewer

/-- No write changes how often a core announces. -/
theorem Edit.interval (h : Edit a b) : b.cfg.interval = a.cfg.interval := by
  cases h with
  | rest _ _ _ hi => exact hi
  | grow cfg hi max n => exact hi
  | ask i bits now _ =>
    rcases a.ask_cases i bits now with h | h | h <;> rw [h] <;> rfl
  | askSent i now _ =>
    unfold Core.askSent Core.refetchDone
    split
    next => rfl
    dsimp only
    repeat' split
    all_goals rfl
  | _ => rfl

theorem Edits.interval (h : Edits a b) : b.cfg.interval = a.cfg.interval := by
  induction h with
  | refl => rfl
  | tail _ hlast ih => exact hlast.interval.trans ih

/-! ## The lookup -/

/-- Who is listed as seated holds the slot it is listed with. -/
theorem mem_seatedRecs (h : Seated st) {slot : Slot} {x : Rec} (hmem : (slot, x) ∈ st.seatedRecs) :
    ∃ i s, st.recAt i = some x ∧ x.slot = some s ∧ st.slots[s]? = some slot := by
  unfold Core.seatedRecs at hmem
  obtain ⟨slot', hslot, heq⟩ := List.mem_filterMap.mp hmem
  obtain ⟨x', hx', hpair⟩ := Option.map_eq_some_iff.mp heq
  obtain ⟨rfl, rfl⟩ := Prod.mk.inj hpair
  obtain ⟨i, hi, hrec⟩ := Option.bind_eq_some_iff.mp hx'
  obtain ⟨s, hs⟩ := List.mem_iff_getElem?.mp hslot
  have hseat : st.slotRec s = some i := by
    unfold Core.slotRec
    rw [hs]
    exact hi
  obtain ⟨r, hr, hrs⟩ := (h.seats s i).mp hseat
  cases hrec.symm.trans hr
  exact ⟨i, s, hrec, hrs, hs⟩

variable {ip : Bytes}

/-- The peer a source is attributed to is one that answers for it. -/
theorem answers_idForAddr (h : Seated st) {port id : Nat} (hid : st.idForAddr ip port = some id) :
    ip ≠ [] ∧ ∃ i x, st.recAt i = some x ∧ x.localId = id ∧ st.Answers x ⟨ip, port⟩ := by
  unfold Core.idForAddr at hid
  split at hid
  next => cases hid
  next hlen =>
    refine ⟨fun hnil => hlen (by rw [hnil]; decide), ?_⟩
    split at hid
    next p hfind =>
      obtain ⟨slot, x⟩ := p
      obtain ⟨i, s, hx, -, -⟩ := mem_seatedRecs h (List.mem_of_find?_eq_some hfind)
      have haddr : x.addr = ⟨ip, port⟩ := by simpa using List.find?_some hfind
      exact ⟨i, x, hx, Option.some.inj hid, Or.inl haddr⟩
    next =>
      split at hid
      next p heq =>
        obtain ⟨slot, x⟩ := p
        have hmem : (slot, x) ∈ st.seatedRecs.filter fun p =>
            p.2.state = .active && p.2.addr.port = port && st.onPath p.1 ip := by
          rw [heq]
          exact List.mem_singleton_self _
        obtain ⟨hseated, hcond⟩ := List.mem_filter.mp hmem
        obtain ⟨i, s, hx, hs, hslot⟩ := mem_seatedRecs h hseated
        rw [Bool.and_eq_true, Bool.and_eq_true] at hcond
        refine ⟨i, x, hx, Option.some.inj hid, Or.inr ⟨by simpa using hcond.1.2, ?_⟩⟩
        have hpath : st.onPath slot ip = true := hcond.2
        unfold Core.onPath at hpath
        obtain ⟨q, hq, hrecent⟩ := (Option.any_eq_true _ _).mp hpath
        have hip : q.1 = ip := by simpa using List.find?_some hq
        exact ⟨q.2, ⟨s, slot, hs, hslot, hip ▸ List.mem_of_find?_eq_some hq⟩, by simpa using hrecent⟩
      next => cases hid

/-! ## A record heard -/

/-- A record keeps whose it is, its locator and its slot, and the slots and the subnets stay. -/
structure Stays (i : Nat) (st st' : Core) : Prop where
  slots : st'.slots = st.slots
  nets : st'.localNets = st.localNets
  recs : ∀ x, st.recAt i = some x → ∃ y, st'.recAt i = some y ∧ y.uuid = x.uuid ∧
    y.addr = x.addr ∧ y.slot = x.slot

theorem Stays.refl (i : Nat) (st : Core) : Stays i st st :=
  ⟨rfl, rfl, fun x hx => ⟨x, hx, rfl, rfl, rfl⟩⟩

theorem Stays.trans {i : Nat} {c : Core} (h : Stays i a b) (g : Stays i b c) : Stays i a c := by
  refine ⟨g.slots.trans h.slots, g.nets.trans h.nets, fun x hx => ?_⟩
  obtain ⟨y, hy, huuid, haddr, hslot⟩ := h.recs x hx
  obtain ⟨z, hz, huuid', haddr', hslot'⟩ := g.recs y hy
  exact ⟨z, hz, huuid'.trans huuid, haddr'.trans haddr, hslot'.trans hslot⟩

/-- A write that keeps a record's uuid, locator and slot. -/
theorem Stays.modRec (st : Core) (i : Nat) {f : Rec → Rec}
    (hf : ∀ x, ((f x).uuid, (f x).addr, (f x).slot) = (x.uuid, x.addr, x.slot)) :
    Stays i st (st.modRec i f) :=
  ⟨rfl, rfl, fun x hx => ⟨f x, Core.recAt_modRec_self hx f, congrArg (fun b => b.1) (hf x),
    congrArg (fun b => b.2.1) (hf x), congrArg (fun b => b.2.2) (hf x)⟩⟩

theorem Stays.settle (st : Core) (i : Nat) (bits : Owed) : Stays i st (st.settle i bits) :=
  ⟨rfl, rfl, fun _ hx => ⟨_, Core.recAt_settle hx bits, rfl, rfl, rfl⟩⟩

theorem Stays.owe (st : Core) (i : Nat) (bits : Owed) (due : Nat) : Stays i st (st.owe i bits due) := by
  refine ⟨rfl, rfl, fun x hx => ?_⟩
  rcases (Records.owe_owes st.records i bits due).get i with ⟨hnone, -⟩ | ⟨y, owed, due, hy, hy'⟩
  · exact absurd (hnone.symm.trans hx) (Option.some_ne_none x).symm
  · cases hy.symm.trans hx
    exact ⟨_, hy', rfl, rfl, rfl⟩

theorem Stays.noteAsk (st : Core) (i : Nat) (m : AskMark) : Stays i st (st.noteAsk m) :=
  ⟨rfl, rfl, fun x hx => ⟨x, hx, rfl, rfl, rfl⟩⟩

theorem Stays.ask (st : Core) (i : Nat) (bits : Owed) (now : Nat) : Stays i st (st.ask i bits now) := by
  rcases st.ask_cases i bits now with h | h | h <;> rw [h]
  · exact Stays.refl i st
  · exact Stays.owe st i bits now
  · have hmod := Stays.modRec st i
      (f := fun x => { x with askTries := if x.askMissed then 1 else askTriesMax }) fun _ => by rfl
    exact (hmod.trans (Stays.noteAsk _ i (.began i))).trans (Stays.owe _ i bits now)

theorem Stays.hearOne (st : Core) (i flags : Nat) : Stays i st (st.hearOne i flags) := by
  unfold Core.hearOne
  split
  next => exact (Stays.settle st i oweMatch).trans (Stays.modRec _ i fun _ => by rfl)
  next => exact Stays.refl i st

/-- What the FULL flag leaves a record: no slot. -/
def Rec.heardWith (x : Rec) (flags : Nat) : Rec :=
  if hasFlag flags flagFull then { x with slot := none } else x

/-- Its slot was given back, or all stays. -/
structure Heeded (i flags : Nat) (st st' : Core) : Prop where
  nets : st'.localNets = st.localNets
  slots : hasFlag flags flagFull = false → st'.slots = st.slots
  recs : ∀ x, st.recAt i = some x → ∃ y, st'.recAt i = some y ∧ y.uuid = x.uuid ∧
    y.addr = x.addr ∧ y.slot = (x.heardWith flags).slot

variable {flags : Nat}

theorem Stays.heeded {i : Nat} {c : Core} (h : Stays i a b) (g : Heeded i flags b c) :
    Heeded i flags a c := by
  refine ⟨g.nets.trans h.nets, fun hfull => (g.slots hfull).trans h.slots, fun x hx => ?_⟩
  obtain ⟨y, hy, huuid, haddr, hslot⟩ := h.recs x hx
  obtain ⟨z, hz, huuid', haddr', hslot'⟩ := g.recs y hy
  refine ⟨z, hz, huuid'.trans huuid, haddr'.trans haddr, hslot'.trans ?_⟩
  unfold Rec.heardWith
  split
  next => rfl
  next => exact hslot

/-- What is not FULL leaves the slot. -/
theorem heeded_of_stays {i : Nat} (hfull : ¬ hasFlag flags flagFull = true)
    (h : Stays i st st') : Heeded i flags st st' := by
  refine ⟨h.nets, fun _ => h.slots, fun x hx => ?_⟩
  unfold Rec.heardWith
  rw [if_neg hfull]
  exact h.recs x hx

/-- What is FULL gives its slot back. -/
theorem heeded_giveBack {i : Nat} (hfull : hasFlag flags flagFull = true) {x : Rec} {s : Nat}
    (hx : st.recAt i = some x) (hs : x.slot = some s) :
    Heeded i flags st { st.giveBack i with slotsOpened := true } := by
  have hnone : ∀ y : Rec, (y.heardWith flags).slot = none := by
    intro y
    unfold Rec.heardWith
    rw [if_pos hfull]
  have hback := giveBack_of_slot hx hs
  have hrec : (st.giveBack i).recAt i = some { x with owed := x.owed.clear oweMatch, slot := none } := by
    rw [hback]
    exact Core.recAt_modRec_self (Core.recAt_settle hx oweMatch) _
  refine ⟨?_, fun hnot => absurd (hfull.symm.trans hnot) (by decide), fun y hy => ?_⟩
  · show (st.giveBack i).localNets = st.localNets
    rw [hback]
    rfl
  · cases hx.symm.trans hy
    exact ⟨_, hrec, rfl, rfl, (hnone x).symm⟩

theorem heeded_hearFull (st : Core) (i flags : Nat) (haveBlob : Bool) (now : Nat) :
    Heeded i flags st (st.hearFull i flags haveBlob now) := by
  unfold Core.hearFull
  split
  next hnone =>
    exact ⟨rfl, fun _ => rfl, fun x hx => absurd (hnone.symm.trans hx) (Option.some_ne_none x).symm⟩
  next x hx =>
    split
    next hfull =>
      have hstay := (Stays.settle st i oweMatch).trans (Stays.modRec _ i (f := fun x =>
        { x with full := true, reask := !hasFlag flags flagOne, askMissed := false, want := .no })
        fun _ => by rfl)
      obtain ⟨y, hy, huuid, haddr, hslot⟩ := hstay.recs x hx
      dsimp only
      cases hs : x.slot with
      | none =>
        rw [Option.isSome_none, if_neg Bool.false_ne_true]
        refine ⟨hstay.nets, fun _ => hstay.slots, fun x' hx' => ?_⟩
        cases hx.symm.trans hx'
        refine ⟨y, hy, huuid, haddr, (hslot.trans hs).trans ?_⟩
        unfold Rec.heardWith
        rw [if_pos hfull]
      | some s =>
        rw [Option.isSome_some, if_pos rfl]
        exact hstay.heeded (heeded_giveBack hfull hy (hslot.trans hs))
    next hfull =>
      split
      next =>
        split
        next => exact heeded_of_stays hfull (Stays.modRec st i fun _ => by rfl)
        split
        next =>
          exact heeded_of_stays hfull ((Stays.ask st i oweMatch now).trans
            (Stays.modRec _ i fun _ => by rfl))
        next => exact heeded_of_stays hfull (Stays.refl i st)
      next => exact heeded_of_stays hfull (Stays.refl i st)

/-- A record heard keeps its slot unless it turns full. -/
theorem heeded_heardRec (st : Core) (i : Nat) (w : Wire) (haveBlob : Bool) (now : Nat) :
    Heeded i w.flags st (st.heardRec i w haveBlob now) := by
  unfold Core.heardRec
  have hname : Stays i st (st.takeName i w.name) := Stays.modRec st i fun _ => by rfl
  have hstate : Stays i (st.takeName i w.name)
      { st.takeName i w.name with records := (st.takeName i w.name).records.setState i .active } := by
    refine ⟨rfl, rfl, fun x hx => ⟨{ x with state := .active }, ?_, rfl, rfl, rfl⟩⟩
    show ((st.takeName i w.name).records.setState i .active).get i = _
    rw [Records.get_setState, if_pos rfl]
    exact congrArg (Option.map _) hx
  have htime := (hname.trans hstate).trans (Stays.modRec _ i (f := fun x =>
    { x with lastHeard := now, uni := if hasFlag w.flags flagUni then now else x.uni })
    fun _ => by rfl)
  exact (htime.trans (Stays.hearOne _ i w.flags)).heeded (heeded_hearFull _ i w.flags haveBlob now)

/-- The locator is ranked as it was before the datagram, with the slot that is left. -/
theorem Heeded.ranked {i : Nat} (h : Heeded i flags st st')
    (hinterval : st'.cfg.interval = st.cfg.interval) {x y : Rec} (haddr : y.addr = x.addr)
    (hslot : y.slot = (x.heardWith flags).slot) (a : Addr) (now : Nat) :
    st'.rankedAddr y a now = st.rankedAddr (x.heardWith flags) a now := by
  have haddr' : (x.heardWith flags).addr = x.addr := by
    unfold Rec.heardWith
    split <;> rfl
  have hrank : ∀ ip, st'.addrRank ip = st.addrRank ip := by
    intro ip
    unfold Core.addrRank
    rw [h.nets]
  have hof : st'.slotOf y = st.slotOf (x.heardWith flags) := by
    unfold Core.slotOf
    rw [hslot]
    cases hfull : hasFlag flags flagFull with
    | true =>
      have hnone : (x.heardWith flags).slot = none := by
        unfold Rec.heardWith
        rw [if_pos hfull]
      rw [hnone]
      rfl
    | false => rw [h.slots hfull]
  unfold Core.rankedAddr
  rw [haddr, haddr', hof, hinterval]
  simp only [hrank]

/-- A slot knows the paths it knew and the one heard. -/
theorem paths_notePath (slot : Slot) (ip : Bytes) (now : Nat) {p : Bytes × Nat}
    (h : p ∈ (slot.notePath ip now).paths) : p ∈ slot.paths ∨ p = (ip, now) :=
  List.mem_or_eq_of_mem_set h

/-- The only path a datagram brings is its source, in the slot of its record. -/
theorem slots_heardFrom {s : Nat} {x : Rec} {src : Option Addr} {now : Nat} {slot' : Slot}
    (h : (st.heardFrom s x src now).slots[t]? = some slot') :
    ∃ slot, st.slots[t]? = some slot ∧ ∀ p ∈ slot'.paths, p ∈ slot.paths ∨
      s = t ∧ ∃ a, src = some a ∧ p = (a.ip, now) := by
  unfold Core.heardFrom at h
  cases src with
  | none => exact ⟨slot', h, fun p hp => Or.inl hp⟩
  | some a =>
    have hnoted : ∃ slot, (st.modSlot s fun slot => slot.notePath a.ip now).slots[t]? = some slot ∧
        slot.paths = slot'.paths := by
      dsimp only at h
      split at h
      next =>
        obtain ⟨slot, hslot, rfl⟩ := getElem?_modSlot h
        refine ⟨slot, hslot, ?_⟩
        split <;> rfl
      next => exact ⟨slot', h, rfl⟩
    obtain ⟨slot, hslot, hpaths⟩ := hnoted
    obtain ⟨slot₀, hslot₀, rfl⟩ := getElem?_modSlot hslot
    refine ⟨slot₀, hslot₀, fun p hp => ?_⟩
    rw [← hpaths] at hp
    split at hp
    next hst => exact (paths_notePath slot₀ a.ip now hp).imp_right fun heq => ⟨hst, a, rfl, heq⟩
    next => exact Or.inl hp

theorem recAt_heardAt (st : Core) (i : Nat) (src : Option Addr) (now j : Nat) :
    (st.heardAt i src now).recAt j = st.recAt j := by
  unfold Core.heardAt
  split
  next => rfl
  split
  next => rfl
  unfold Core.heardFrom
  split
  next => rfl
  next => dsimp only; split <;> rfl

/-- A path of a record after that was one before, or is the source, in a slot the record heard has. -/
theorem heard_heardAt {i now : Nat} {src : Option Addr} {z : Rec}
    (h : (st.heardAt i src now).Heard z ip t) : st.Heard z ip t ∨
      (∃ a, src = some a ∧ ip = a.ip ∧ t = now) ∧
        ∃ x s, st.recAt i = some x ∧ x.slot = some s ∧ z.slot = some s := by
  unfold Core.heardAt at h
  split at h
  next => exact Or.inl h
  next x hx =>
    split at h
    next => exact Or.inl h
    next s hs =>
      obtain ⟨t', slot', hz, hget, hmem⟩ := h
      obtain ⟨slot, hslot, hpaths⟩ := slots_heardFrom hget
      rcases hpaths _ hmem with hold | ⟨rfl, a, ha, heq⟩
      · exact Or.inl ⟨t', slot, hz, hslot, hold⟩
      · obtain ⟨rfl, rfl⟩ := Prod.mk.inj heq
        exact Or.inr ⟨⟨a, ha, rfl, rfl⟩, x, s, hx, hs, hz⟩

/-- What a datagram leaves of a record: it is as it was, or it is the one heard, which has the
locator that ranked and the paths it had but for the source, or it is fresh. -/
theorem hear_leaves {i : Nat} {x : Rec} (hx : st.recAt i = some x) (env : Env) (w : Wire)
    (src : Option Addr) (cand : Addr) (haveBlob : Bool) (tooBig : Nat) (first : Bool) (now : Nat)
    (hseated : Seated (st.hear env i w src cand haveBlob tooBig first now)) (j : Nat) (z : Rec)
    (hz : (st.hear env i w src cand haveBlob tooBig first now).recAt j = some z) :
    (j ≠ i ∧ ∃ y, st.recAt j = some y ∧ y.uuid = z.uuid ∧ y.addr = z.addr ∧ ∀ ip t, ip ≠ [] →
        (st.hear env i w src cand haveBlob tooBig first now).Heard z ip t → st.Heard y ip t) ∨
      (j = i ∧ z.uuid = x.uuid ∧ z.addr = st.rankedAddr (x.heardWith w.flags) cand now ∧
        ∀ ip t, ip ≠ [] → (st.hear env i w src cand haveBlob tooBig first now).Heard z ip t →
          (∃ a, src = some a ∧ ip = a.ip ∧ t = now) ∨ st.Heard (x.heardWith w.flags) ip t) ∨
      z.addr = {} ∧ ∀ ip t, ip ≠ [] →
        (st.hear env i w src cand haveBlob tooBig first now).Heard z ip t → t = now := by
  obtain ⟨st₁, d, st₂, h₁, hname, h₂, h₃, hslots⟩ := edits_hear st env i w src cand haveBlob tooBig first now
  rcases h₃.fewer j z hz with ⟨haddr, hnone⟩ | ⟨z₃, hz₃, huuid₃, haddr₃, hheard₃⟩
  · exact Or.inr (Or.inr ⟨haddr, fun ip t hip ht => absurd ht (hnone ip t hip)⟩)
  -- the paths when it was heard, and where one came since
  have hpaths : ∀ ip t, ip ≠ [] →
      (st.hear env i w src cand haveBlob tooBig first now).Heard z ip t →
      st₂.Heard z₃ ip t ∨ (∃ a, src = some a ∧ ip = a.ip ∧ t = now) ∧ j = i := by
    intro ip t hip ht
    rcases heard_heardAt (hheard₃ ip t hip ht) with hold | ⟨hsrc, y, s, hy, hys, hzs⟩
    · exact Or.inl hold
    · refine Or.inr ⟨hsrc, ?_⟩
      obtain ⟨y', hy', hslot⟩ := hslots i y (by rw [recAt_heardAt]; exact hy)
      obtain ⟨z', hz', hslot'⟩ := hslots j z₃ hz₃
      have hi := (hseated.seats s i).mpr ⟨y', hy', hslot.trans hys⟩
      have hj := (hseated.seats s j).mpr ⟨z', hz', hslot'.trans hzs⟩
      exact Option.some.inj (hj.symm.trans hi)
  rw [recAt_heardAt] at hz₃
  rcases h₂.fewer j z₃ hz₃ with ⟨haddr, hnone⟩ | ⟨z₂, hz₂, huuid₂, haddr₂, hheard₂⟩
  · refine Or.inr (Or.inr ⟨haddr₃.symm.trans haddr, fun ip t hip ht => ?_⟩)
    rcases hpaths ip t hip ht with hold | ⟨⟨a, -, -, hnow⟩, -⟩
    · exact absurd hold (hnone ip t hip)
    · exact hnow
  by_cases hj : j = i
  · subst hj
    refine Or.inr (Or.inl ⟨rfl, ?_⟩)
    have hsome : st.recAt j ≠ none := by
      rw [hx]
      exact Option.some_ne_none x
    have heard := heeded_heardRec st j w haveBlob now
    rw [← hname hsome] at heard
    obtain ⟨y, hy, huuid, hyaddr, hslot⟩ := heard.recs x hx
    rw [Core.recAt_modRec_self hy, hy, Option.getD_some,
      heard.ranked h₁.interval hyaddr hslot] at hz₂
    cases hz₂
    refine ⟨(huuid₃.symm.trans huuid₂.symm).trans huuid, (haddr₃.symm.trans haddr₂.symm), ?_⟩
    intro ip t hip ht
    rcases hpaths ip t hip ht with hold | ⟨hsrc, -⟩
    · obtain ⟨s, slot, hs, hget, hmem⟩ := hheard₂ ip t hip hold
      have hkept : (x.heardWith w.flags).slot = some s := hslot.symm.trans hs
      cases hfull : hasFlag w.flags flagFull with
      | true =>
        unfold Rec.heardWith at hkept
        rw [if_pos hfull] at hkept
        cases hkept
      | false =>
        have hget' : st₁.slots[s]? = some slot := hget
        rw [heard.slots hfull] at hget'
        exact Or.inr ⟨s, slot, hkept, hget', hmem⟩
    · exact Or.inl hsrc
  · rw [Core.recAt_modRec_ne hj] at hz₂
    rcases h₁.fewer j z₂ hz₂ with ⟨haddr, hnone⟩ | ⟨y, hy, huuid, hyaddr, hheard⟩
    · refine Or.inr (Or.inr ⟨haddr₃.symm.trans (haddr₂.symm.trans haddr), fun ip t hip ht => ?_⟩)
      rcases hpaths ip t hip ht with hold | ⟨-, heq⟩
      · exact absurd (hheard₂ ip t hip hold) (hnone ip t hip)
      · exact absurd heq hj
    · refine Or.inl ⟨hj, y, hy, (huuid.trans huuid₂).trans huuid₃, (hyaddr.trans haddr₂).trans haddr₃, ?_⟩
      intro ip t hip ht
      rcases hpaths ip t hip ht with hold | ⟨-, heq⟩
      · exact hheard ip t hip (hheard₂ ip t hip hold)
      · exact absurd heq hj

/-- A datagram changes nothing of how often a core announces. -/
theorem interval_hear (st : Core) (env : Env) (i : Nat) (w : Wire) (src : Option Addr) (cand : Addr)
    (haveBlob : Bool) (tooBig : Nat) (first : Bool) (now : Nat) :
    (st.hear env i w src cand haveBlob tooBig first now).cfg.interval = st.cfg.interval := by
  obtain ⟨st₁, d, st₂, h₁, -, h₂, h₃, -⟩ := edits_hear st env i w src cand haveBlob tooBig first now
  have hat : (st₂.heardAt i src now).cfg = st₂.cfg := by
    unfold Core.heardAt
    split
    next => rfl
    split
    next => rfl
    unfold Core.heardFrom
    split
    next => rfl
    next => dsimp only; split <;> rfl
  calc (st.hear env i w src cand haveBlob tooBig first now).cfg.interval
      = (st₂.heardAt i src now).cfg.interval := h₃.interval
    _ = st₂.cfg.interval := congrArg Config.interval hat
    _ = st₁.cfg.interval := h₂.interval
    _ = st.cfg.interval := h₁.interval

/-! ## A stranger -/

/-- An endpoint that is evicted is held by nobody. -/
theorem evictEndpoint_clears {a : Addr} (hip : a.ip ≠ []) (hport : a.port ≠ 0) {i : Nat} {x : Rec}
    (hx : (st.evictEndpoint a).recAt i = some x) : x.addr ≠ a := by
  have hfold : ∀ (is : List Nat) (st : Core), (∀ i x, st.recAt i = some x → x.addr = a → i ∈ is) →
      ∀ i x, (is.foldl (fun st i => if (st.recAt i).any fun x => x.addr = a then st.peerGone i else st)
        st).recAt i = some x → x.addr ≠ a := by
    intro is
    induction is with
    | nil => exact fun st hheld i x hx haddr => List.not_mem_nil (hheld i x hx haddr)
    | cons k is ih =>
      intro st hheld
      rw [List.foldl_cons]
      refine ih _ fun i x hx haddr => ?_
      by_cases hk : (st.recAt k).any fun x => x.addr = a
      · rw [if_pos hk, recAt_peerGone] at hx
        split at hx
        next => cases hx
        next hik => exact (List.mem_cons.mp (hheld i x hx haddr)).resolve_left hik
      · rw [if_neg hk] at hx
        refine (List.mem_cons.mp (hheld i x hx haddr)).resolve_left fun hik => hk ?_
        subst hik
        rw [hx]
        simpa using haddr
  unfold Core.evictEndpoint at hx
  rw [if_neg (not_or.mpr ⟨hip, hport⟩)] at hx
  exact hfold _ st (fun i x hx _ => List.mem_range.mpr (Records.get_lt hx)) i x hx

/-- An endpoint that is evicted is nobody's, where no other answered for it by a path. -/
theorem unanswered {a : Addr} (hip : a.ip ≠ []) (hport : a.port ≠ 0) (hst : Fewer st st')
    (hevicted : Fewer (st.evictEndpoint a) st') (hnow : st'.now = st.now)
    (hinterval : st'.cfg.interval = st.cfg.interval)
    (hheld : ∀ j y, st.recAt j = some y → st.Answers y a → y.addr = a) {j : Nat} {z : Rec}
    (hz : st'.recAt j = some z) : ¬ st'.Answers z a := by
  intro hanswers
  have hnil : z.addr ≠ {} := by
    intro hnil
    refine hport ?_
    rcases hanswers with rfl | ⟨heq, -⟩
    · exact congrArg Addr.port hnil
    · exact heq.symm.trans (congrArg Addr.port hnil)
  rcases hst j z hz with ⟨haddr, -⟩ | ⟨y, hy, -, hyaddr, hheard⟩
  · exact hnil haddr
  have haddr : z.addr = a := by
    rw [← hyaddr]
    refine hheld j y hy ?_
    rcases hanswers with rfl | ⟨heq, t, ht, hrecent⟩
    · exact Or.inl hyaddr
    · refine Or.inr ⟨hyaddr ▸ heq, t, hheard a.ip t hip ht, ?_⟩
      rw [← hnow, ← hinterval]
      exact hrecent
  rcases hevicted j z hz with ⟨haddr', -⟩ | ⟨y', hy', -, hyaddr', -⟩
  · exact hnil haddr'
  · exact evictEndpoint_clears hip hport hy' (hyaddr'.trans haddr)

/-- A stranger is met with a fresh record, and the others are what its eviction leaves. -/
theorem met_leaves {A : Ground} (h : Inv A settled st) {env : Env} {w : Wire} {cand : Addr}
    {haveBlob : Bool} (hfind : st.records.find w.uuid = none) {i : Nat} {v : Admit}
    (hmet : st.meetStranger env w cand haveBlob = (st', some i, v)) :
    (∃ x, st'.recAt i = some x ∧ x.uuid = w.uuid ∧ x.addr = {} ∧ x.slot = none) ∧
      Edits st st' ∧ Fewer (st.evictEndpoint cand) st' ∧ st'.now = st.now := by
  have habs : Absent w.uuid st := fun j q hq => h.store.find_none hfind j q hq
  have hedits := edits_meetStranger st env w cand haveBlob
  have hevicted := (edits_evicted st env w cand haveBlob).fewer
  have hspec := meetStranger_spec h habs env cand haveBlob
  rw [hmet] at hedits hevicted hspec
  rcases hspec with ⟨hnone, -⟩ | ⟨i', x, hi, hx, huuid, hslot, hinv⟩
  · cases hnone
  · cases hi
    refine ⟨⟨x, hx, huuid, ?_, hslot⟩, hedits, hevicted,
      congrArg (fun o => o.2.2.2.2.2) (hinv.own.trans h.own.symm)⟩
    rcases hedits.fewer i x hx with ⟨hnil, -⟩ | ⟨y, hy, huuid', -⟩
    · exact hnil
    · exact absurd (huuid'.trans huuid) (habs i y hy)

/-! ## Announces -/

/-- The announce an event brings, where it is one the core takes. -/
def Core.hears (st : Core) : Event → Option (Wire × Option Addr × Nat)
  | .datagram _ src d now =>
    match decode d with
    | (r, w) =>
      if r = .foreign || w.domain ≠ st.cfg.domain || r = .wire || r = .malformed ||
        w.uuid = st.cfg.uuid || hasFlag w.flags flagBye || st.leftLately w.uuid now then none
      else some (w, Core.sourceOf src, now)
  | _ => none

/-- A core, and the uuid that announced last from each address and data port. -/
structure Announced where
  core : Core
  last : Addr → Option Bytes

/-- Who announced last from each endpoint, after one more announce. -/
def lastAfter (last : Addr → Option Bytes) (w : Wire) (src : Option Addr) (a : Addr) : Option Bytes :=
  if src.any fun s => a = ⟨s.ip, w.dataPort⟩ then some w.uuid else last a

/-- An endpoint was last named by this datagram or by one before. -/
theorem lastAfter_eq {last : Addr → Option Bytes} {w : Wire} {src : Option Addr} {a : Addr} {u : Bytes}
    (h : lastAfter last w src a = some u) :
    (u = w.uuid ∧ ∃ s, src = some s ∧ a = ⟨s.ip, w.dataPort⟩) ∨
      (∀ s, src = some s → a ≠ ⟨s.ip, w.dataPort⟩) ∧ last a = some u := by
  unfold lastAfter at h
  split at h
  next hany =>
    obtain ⟨s, hs, ha⟩ := (Option.any_eq_true _ _).mp hany
    exact Or.inl ⟨(Option.some.inj h).symm, s, hs, by simpa using ha⟩
  next hany =>
    refine Or.inr ⟨fun s hs ha => hany ?_, h⟩
    rw [hs, Option.any_some]
    simpa using ha

namespace Announced

def step (m : Announced) (e : Event) : Announced where
  core := (m.core.step e).1
  last := match m.core.hears e with
    | some (w, src, _) => lastAfter m.last w src
    | none => m.last

/-- No source is attributed to another than the peer that announced from it last, and no two
records hold one locator. Port 0 is not an endpoint. -/
structure Attributed (m : Announced) : Prop where
  source : ∀ ip port id u, port ≠ 0 → m.core.idForAddr ip port = some id →
    m.last ⟨ip, port⟩ = some u → ∃ i x, m.core.recAt i = some x ∧ x.localId = id ∧ x.uuid = u
  locator : ∀ i j x y, m.core.recAt i = some x → m.core.recAt j = some y → x.addr = y.addr →
    x.addr.port ≠ 0 → i = j

/-- What keeps every endpoint to its peer: no path is from later than the clock, who answers for
an endpoint is who announced from it last, and a locator is held once. -/
structure Sourced (m : Announced) : Prop where
  clock : m.core.now < 2 ^ 64
  past : ∀ i x ip t, m.core.recAt i = some x → ip ≠ [] → m.core.Heard x ip t → t ≤ m.core.now
  last : ∀ i x a u, m.core.recAt i = some x → a.ip ≠ [] → a.port ≠ 0 → m.core.Answers x a →
    m.last a = some u → x.uuid = u
  locator : ∀ i j x y, m.core.recAt i = some x → m.core.recAt j = some y → x.addr = y.addr →
    x.addr.port ≠ 0 → i = j

/-- Where every seated record is its sources', attribution is right. -/
theorem Sourced.attributed {m : Announced} (h : m.Sourced) (hseated : Seated m.core) : m.Attributed := by
  refine ⟨fun ip port id u hport hid hlast => ?_, h.locator⟩
  obtain ⟨hip, i, x, hx, hxid, hanswers⟩ := answers_idForAddr hseated hid
  exact ⟨i, x, hx, hxid, h.last i x ⟨ip, port⟩ u hx hip hport hanswers hlast⟩

/-- A path that is recent was so before. -/
theorem since_le {t n m k : Nat} (ht : t ≤ n) (hnm : n ≤ m) (hm : m < 2 ^ 64) (h : since m t ≤ k) :
    since n t ≤ k := by
  unfold since at h ⊢
  omega

/-- It survives a chain of writes. -/
theorem Sourced.fewer {m : Announced} (h : m.Sourced) {st' : Core} (hf : Fewer m.core st')
    (hinterval : st'.cfg.interval = m.core.cfg.interval) (hle : m.core.now ≤ st'.now)
    (hlt : st'.now < 2 ^ 64) : Sourced ⟨st', m.last⟩ := by
  refine ⟨hlt, fun i z ip t hz hip ht => ?_, fun i z a u hz hip hport hanswers hlast => ?_,
    fun i j y z hy hz haddr hport => ?_⟩
  · rcases hf i z hz with ⟨-, hnone⟩ | ⟨x, hx, -, -, hheard⟩
    · exact absurd ht (hnone ip t hip)
    · exact (h.past i x ip t hx hip (hheard ip t hip ht)).trans hle
  · rcases hf i z hz with ⟨haddr, -⟩ | ⟨x, hx, huuid, haddr, hheard⟩
    · refine absurd ?_ hport
      rcases hanswers with rfl | ⟨heq, -⟩
      · exact congrArg Addr.port haddr
      · exact heq.symm.trans (congrArg Addr.port haddr)
    · refine huuid.symm.trans (h.last i x a u hx hip hport ?_ hlast)
      rcases hanswers with rfl | ⟨heq, t, ht, hrecent⟩
      · exact Or.inl haddr
      · have hold := hheard a.ip t hip ht
        refine Or.inr ⟨haddr ▸ heq, t, hold, since_le (h.past i x a.ip t hx hip hold) hle hlt ?_⟩
        rw [← hinterval]
        exact hrecent
  · have hback : ∀ k w, st'.recAt k = some w → w.addr.port ≠ 0 →
        ∃ x, m.core.recAt k = some x ∧ x.addr = w.addr := by
      intro k w hw hwport
      rcases hf k w hw with ⟨hnil, -⟩ | ⟨x, hx, -, hxaddr, -⟩
      · exact absurd (congrArg Addr.port hnil) hwport
      · exact ⟨x, hx, hxaddr⟩
    obtain ⟨x, hx, hxaddr⟩ := hback i y hy hport
    obtain ⟨x', hx', hxaddr'⟩ := hback j z hz (haddr ▸ hport)
    exact h.locator i j x x' hx hx' ((hxaddr.trans haddr).trans hxaddr'.symm) (hxaddr ▸ hport)

end Announced

/-- What the announce of a record leaves it answering for: the locator that ranks, and at its
data port the recent paths of the slot it keeps. -/
def Core.Keeps (st : Core) (x : Rec) (w : Wire) (cand : Addr) (now : Nat) (a : Addr) : Prop :=
  a = st.rankedAddr (x.heardWith w.flags) cand now ∨ a.port = w.dataPort ∧
    ∃ t, st.Heard (x.heardWith w.flags) a.ip t ∧ since now t ≤ st.cfg.interval * 3

theorem heard_heardWith {x : Rec}
    (h : st.Heard (x.heardWith flags) ip t) : st.Heard x ip t := by
  unfold Rec.heardWith at h
  split at h
  next =>
    obtain ⟨s, slot, hs, -⟩ := h
    cases hs
  next => exact h

theorem port_rankedAddr (st : Core) (x : Rec) (a : Addr) (now : Nat) :
    (st.rankedAddr x a now).port = a.port := by
  unfold Core.rankedAddr
  dsimp only
  split
  next => split <;> rfl
  next => rfl

/-- An announce that takes no endpoint from another keeps every endpoint to its peer. -/
theorem Announced.Sourced.hear {last : Addr → Option Bytes} (h : Announced.Sourced ⟨st, last⟩) {i : Nat} {x : Rec}
    (hx : st.recAt i = some x) {env : Env} {w : Wire} {src : Option Addr} {cand : Addr}
    {haveBlob : Bool} {tooBig : Nat} {first : Bool} (huuid : x.uuid = w.uuid)
    (hcand : cand.port = w.dataPort)
    (hinv : Inv (.any (st.hear env i w src cand haveBlob tooBig first st.now)) settled
      (st.hear env i w src cand haveBlob tooBig first st.now))
    (hnow : (st.hear env i w src cand haveBlob tooBig first st.now).now = st.now)
    (hinterval : (st.hear env i w src cand haveBlob tooBig first st.now).cfg.interval = st.cfg.interval)
    (hothers : ∀ s, src = some s → w.dataPort ≠ 0 → ∀ j y, j ≠ i → st.recAt j = some y →
      ¬ st.Answers y ⟨s.ip, w.dataPort⟩)
    (hkept : ∀ a u, a.ip ≠ [] → a.port ≠ 0 → st.Keeps x w cand st.now a →
      lastAfter last w src a = some u → u = w.uuid)
    (hfree : ∀ j y, j ≠ i → st.recAt j = some y → y.addr ≠ st.rankedAddr (x.heardWith w.flags) cand st.now ∨
      w.dataPort = 0) :
    Announced.Sourced ⟨st.hear env i w src cand haveBlob tooBig first st.now, lastAfter last w src⟩ := by
  have hleaves := hear_leaves hx env w src cand haveBlob tooBig first st.now hinv.seated
  have hrank := port_rankedAddr st (x.heardWith w.flags) cand st.now
  generalize st.hear env i w src cand haveBlob tooBig first st.now = st' at *
  refine ⟨?_, fun j z ip t hz hip ht => ?_, fun j z a u hz hip hport hanswers hlast => ?_,
    fun j k y z hy hz haddr hport => ?_⟩
  · show st'.now < 2 ^ 64
    rw [hnow]
    exact h.clock
  · show t ≤ st'.now
    rw [hnow]
    rcases hleaves j z hz with ⟨-, y, hy, -, -, hheard⟩ | ⟨-, -, -, hheard⟩ | ⟨-, hheard⟩
    · exact h.past j y ip t hy hip (hheard ip t hip ht)
    · rcases hheard ip t hip ht with ⟨a, -, -, rfl⟩ | hold
      · exact le_refl _
      · exact h.past i x ip t hx hip (heard_heardWith hold)
    · exact (hheard ip t hip ht).le
  -- another's record, the one that is heard, or one made anew
  · rcases hleaves j z hz with ⟨hj, y, hy, hyuuid, hyaddr, hheard⟩ | ⟨-, hzuuid, hzaddr, hheard⟩ | ⟨hnil, -⟩
    · have hold : st.Answers y a := by
        rcases hanswers with rfl | ⟨heq, t, ht, hrecent⟩
        · exact Or.inl hyaddr
        · refine Or.inr ⟨hyaddr ▸ heq, t, hheard a.ip t hip ht, ?_⟩
          rw [← hnow, ← hinterval]
          exact hrecent
      rcases lastAfter_eq hlast with ⟨-, s, hs, rfl⟩ | ⟨-, hlast'⟩
      · exact absurd hold (hothers s hs hport j y hj hy)
      · exact hyuuid.symm.trans (h.last j y a u hy hip hport hold hlast')
    · refine (hzuuid.trans huuid).trans (Eq.symm ?_)
      -- it answers at its locator, or at a source it was lately heard from
      rcases hanswers with rfl | ⟨heq, t, ht, hrecent⟩
      · exact hkept z.addr u hip hport (Or.inl hzaddr) hlast
      · have hdata : a.port = w.dataPort := by
          rw [← heq, show z.addr.port = _ from congrArg Addr.port hzaddr, hrank, hcand]
        rcases hheard a.ip t hip ht with ⟨s, hs, hsip, -⟩ | hold
        · rcases lastAfter_eq hlast with ⟨hu, -⟩ | ⟨hne, -⟩
          · exact hu
          · exact absurd (by rw [← hsip, ← hdata]) (hne s hs)
        · refine hkept a u hip hport (Or.inr ⟨hdata, t, hold, ?_⟩) hlast
          rw [← hinterval, ← hnow]
          exact hrecent
    · refine absurd ?_ hport
      rcases hanswers with rfl | ⟨heq, -⟩
      · exact congrArg Addr.port hnil
      · exact heq.symm.trans (congrArg Addr.port hnil)
  -- the new locator is nobody else's, or has no port
  · have hclash : ∀ j y z, st'.recAt j = some y → j ≠ i → st'.recAt i = some z → y.addr = z.addr →
        y.addr.port ≠ 0 → False := by
      intro j y z hy hj hz haddr hport
      rcases hleaves j y hy with ⟨-, y₀, hy₀, -, hyaddr, -⟩ | ⟨heq, -⟩ | ⟨hnil, -⟩
      · rcases hleaves i z hz with ⟨hne, -⟩ | ⟨-, -, hzaddr, -⟩ | ⟨hnil, -⟩
        · exact hne rfl
        · rcases hfree j y₀ hj hy₀ with hne | hzero
          · exact hne ((hyaddr.trans haddr).trans hzaddr)
          · refine hport ?_
            rw [haddr, hzaddr, hrank, hcand, hzero]
        · exact hport (by rw [haddr, hnil])
      · exact hj heq
      · exact hport (by rw [hnil])
    by_cases hj : j = i
    · by_cases hk : k = i
      · exact hj.trans hk.symm
      · subst hj
        exact (hclash k z y hz hk hy haddr.symm (haddr ▸ hport)).elim
    · by_cases hk : k = i
      · subst hk
        exact (hclash j y z hy hj hz haddr hport).elim
      · rcases hleaves j y hy with ⟨-, y₀, hy₀, -, hyaddr, -⟩ | ⟨heq, -⟩ | ⟨hnil, -⟩
        · rcases hleaves k z hz with ⟨-, z₀, hz₀, -, hzaddr, -⟩ | ⟨heq, -⟩ | ⟨hnil, -⟩
          · exact h.locator j k y₀ z₀ hy₀ hz₀ ((hyaddr.trans haddr).trans hzaddr.symm) (hyaddr ▸ hport)
          · exact absurd heq hk
          · exact absurd (by rw [haddr, hnil]) hport
        · exact absurd heq hj
        · exact absurd (by rw [hnil]) hport

/-! ## A step -/

/-- What an event that is heard is. -/
theorem hears_some {e : Event} {w : Wire} {src : Option Addr} {now : Nat}
    (h : st.hears e = some (w, src, now)) : e.clock = some now ∧ hasFlag w.flags flagBye = false ∧
      st.leftLately w.uuid now = false ∧ (∀ a, src = some a → a.ip ≠ []) ∧ ∃ env haveBlob tooBig,
        (st.step e).1 = Core.arrive { st with now := now } env w src haveBlob tooBig now := by
  cases e with
  | datagram env src' d now' =>
    unfold Core.hears at h
    dsimp only at h
    split at h
    next => cases h
    next hno =>
      cases h
      simp only [Bool.or_eq_true, decide_eq_true_eq, not_or, Bool.not_eq_true] at hno
      obtain ⟨⟨⟨⟨⟨⟨hforeign, hdomain⟩, hwire⟩, hmal⟩, hown⟩, hbye⟩, hleft⟩ := hno
      refine ⟨rfl, hbye, hleft, fun a ha hnil => ?_, env, ?_⟩
      · unfold Core.sourceOf at ha
        have hlen := (Option.filter_eq_some_iff.mp ha).2
        rw [hnil] at hlen
        cases hlen
      · show ∃ haveBlob tooBig, st.onDatagram env src' d now =
          Core.arrive { st with now := now } env (decode d).2 (Core.sourceOf src') haveBlob tooBig now
        unfold Core.onDatagram
        dsimp only
        rw [if_neg (by simp [hforeign, not_not.mp hdomain]), if_neg hwire, if_neg (by simp [hmal, hown])]
        exact ⟨_, _, rfl⟩
  | _ => cases h

/-- An event that is not heard is a chain of writes. -/
theorem edits_unheard (st : Core) (e : Event) (h : st.hears e = none) : Edits st (st.step e).1 := by
  cases e with
  | datagram env src d now =>
    have hclock : Edits st { st with now := now } := edits_rest rfl rfl rfl rfl
    show Edits st (st.onDatagram env src d now)
    unfold Core.onDatagram
    dsimp only
    split
    next => exact hclock
    next hforeign =>
      split
      next => exact hclock.trans (minor_wireMismatch _ src _).edits
      next hwire =>
        split
        next => exact hclock
        next hmal =>
          unfold Core.arrive
          dsimp only
          split
          next =>
            have hleft := hclock.trans (minor_leftNote _ (decode d).2.uuid now).edits
            split
            next i _ => exact (hleft.trans (edits_peerGone _ i)).trans (minor_offerOpened _ now).edits
            next => exact hleft.trans (minor_offerOpened _ now).edits
          next hbye =>
            split
            next => exact hclock
            next hleft =>
              exfalso
              unfold Core.hears at h
              dsimp only at h
              split at h
              next hany =>
                simp only [Bool.or_eq_true, decide_eq_true_eq] at hany hforeign hmal
                have hleft' : ¬ st.leftLately (decode d).2.uuid now = true := hleft
                tauto
              next => cases h
  | _ => exact edits_step st _ (fun _ _ _ _ hne => by cases hne)

theorem inv_any_step (h : Inv (.any st) settled st) (e : Event) :
    Inv (.any (st.step e).1) settled (st.step e).1 := by
  refine h.step e ?_
  cases e with
  | datagram => exact fun _ _ => trivial
  | _ => trivial

/-- The clock of a core is that of the last event that read it. -/
theorem now_step {A : Ground} (h : Inv A settled st) (e : Event) :
    (st.step e).1.now = e.clock.getD st.now ∨ (st.step e).1.now = st.now ∧ st.hears e = none := by
  by_cases hmeta : ∃ blob now, e = .setMeta blob now
  · obtain ⟨blob, now, rfl⟩ := hmeta
    refine Or.inr ⟨?_, rfl⟩
    show (st.setMeta blob now).now = st.now
    unfold Core.setMeta
    split <;> rfl
  · refine Or.inl ?_
    rcases own_step h e (fun blob now he => hmeta ⟨blob, now, he⟩) with hown | ⟨-, now, hclock, hown⟩
    · exact congrArg (fun o => o.2.2.2.2.2) hown
    · rw [hclock]
      exact congrArg (fun o => o.2.2.2.2.2) hown

/-- The locator kept is the one heard or the one before with the new port. -/
theorem rankedAddr_eq (st : Core) (x : Rec) (a : Addr) (now : Nat) :
    st.rankedAddr x a now = a ∨ st.rankedAddr x a now = ⟨x.addr.ip, a.port⟩ := by
  unfold Core.rankedAddr
  dsimp only
  split
  next =>
    split
    next => exact Or.inr rfl
    next => exact Or.inl rfl
  next => exact Or.inl rfl

theorem addr_heardWith (x : Rec) (flags : Nat) : (x.heardWith flags).addr = x.addr := by
  unfold Rec.heardWith
  split <;> rfl

namespace Announced

/-- A step takes no endpoint from another: the clock does not run back; who else answers for
the source of an announce is about to be evicted; and where a known peer brings another data
port, nobody announced from or holds what it keeps. -/
structure Clear (m : Announced) (e : Event) : Prop where
  clock : ∀ now, e.clock = some now → m.core.now ≤ now ∧ now < 2 ^ 64
  source : ∀ w s now i x, m.core.hears e = some (w, some s, now) → w.dataPort ≠ 0 →
    m.core.recAt i = some x → x.uuid ≠ w.uuid →
      Core.Answers { m.core with now := now } x ⟨s.ip, w.dataPort⟩ →
        m.core.records.find w.uuid = none ∧ x.addr = ⟨s.ip, w.dataPort⟩
  kept : ∀ w src now i x a u, m.core.hears e = some (w, src, now) → w.dataPort ≠ 0 →
    m.core.records.find w.uuid = some i → m.core.recAt i = some x → x.addr.port ≠ w.dataPort →
      m.core.Keeps x w ⟨(src.map Addr.ip).getD x.addr.ip, w.dataPort⟩ now a → m.last a = some u →
        u = w.uuid ∨ ∃ s, src = some s ∧ a = ⟨s.ip, w.dataPort⟩
  free : ∀ w src now i x j y, m.core.hears e = some (w, src, now) → w.dataPort ≠ 0 →
    m.core.records.find w.uuid = some i → m.core.recAt i = some x → x.addr.port ≠ w.dataPort →
      m.core.recAt j = some y → y.addr = m.core.rankedAddr (x.heardWith w.flags)
        ⟨(src.map Addr.ip).getD x.addr.ip, w.dataPort⟩ now → j = i

variable {m : Announced} {e : Event} {w : Wire} {src : Option Addr} {now i : Nat} {x : Rec}
  {env : Env} {haveBlob : Bool} {tooBig : Nat}

variable {st' : Core}

/-- The announce of a known peer. -/
theorem Sourced.known (h : Sourced ⟨{ m.core with now := now }, m.last⟩) (hwf : m.core.records.WF)
    (hclear : m.Clear e) (hhears : m.core.hears e = some (w, src, now))
    (hfind : m.core.records.find w.uuid = some i) (hx : m.core.recAt i = some x)
    (huuid : x.uuid = w.uuid) {cand : Addr}
    (hcand : cand = ⟨(src.map Addr.ip).getD x.addr.ip, w.dataPort⟩)
    (hst' : st' = Core.hear { m.core with now := now } env i w src cand haveBlob tooBig false now)
    (hinv : Inv (.any st') settled st') (hnow : st'.now = now) :
    Sourced ⟨st', lastAfter m.last w src⟩ := by
  subst hst'
  have hothers : ∀ s, src = some s → w.dataPort ≠ 0 → ∀ j y, j ≠ i →
      Core.recAt { m.core with now := now } j = some y →
        ¬ Core.Answers { m.core with now := now } y ⟨s.ip, w.dataPort⟩ := by
    rintro s rfl hport j y hj hy hanswers
    have hne : y.uuid ≠ w.uuid := fun heq => hj (hwf.uuids j i y x hy hx (heq.trans huuid.symm))
    have hnone := (hclear.source w s now j y hhears hport hy hne hanswers).1
    exact absurd (hnone.symm.trans hfind) (Option.some_ne_none i).symm
  -- its own locator stays its own
  have hown : ∀ a u, a.ip ≠ [] → a.port ≠ 0 → Core.Answers { m.core with now := now } x a →
      lastAfter m.last w src a = some u → u = w.uuid := by
    intro a u hip hport hanswers hlast
    rcases lastAfter_eq hlast with ⟨hu, -⟩ | ⟨-, hlast'⟩
    · exact hu
    · exact (h.last i x a u hx hip hport hanswers hlast').symm.trans huuid
  have hsource : ∀ u s, src = some s → lastAfter m.last w src cand = some u → u = w.uuid := by
    rintro u s rfl hlast
    rcases lastAfter_eq hlast with ⟨hu, -⟩ | ⟨hne, -⟩
    · exact hu
    · exact absurd hcand (hne s rfl)
  refine h.hear hx huuid (by rw [hcand]) hinv hnow (interval_hear ..) hothers
    (fun a u hip hport hkeeps hlast => ?_) fun j y hj hy => ?_
  · by_cases hmove : x.addr.port = w.dataPort
    · rcases hkeeps with ha | ⟨hdata, t, ht, hrecent⟩
      · rcases rankedAddr_eq { m.core with now := now } (x.heardWith w.flags) cand now with hr | hr
        · rw [ha.trans hr] at hlast hip hport
          cases hs : src with
          | some s => exact hsource u s hs hlast
          | none =>
            refine hown cand u hip hport (Or.inl ?_) hlast
            rw [hcand, hs, ← hmove]
            rfl
        · rw [ha.trans hr, addr_heardWith] at hlast hip hport
          refine hown _ u hip hport (Or.inl ?_) hlast
          rw [hcand, ← hmove]
      · exact hown a u hip hport (Or.inr ⟨hmove.trans hdata.symm, t, heard_heardWith ht, hrecent⟩) hlast
    · have hdata : w.dataPort ≠ 0 := by
        rcases hkeeps with ha | ⟨hdata, -⟩
        · have hranked := port_rankedAddr { m.core with now := now } (x.heardWith w.flags) cand now
          rw [← ha, hcand] at hranked
          have hranked' : a.port = w.dataPort := hranked
          exact hranked' ▸ hport
        · exact hdata ▸ hport
      rcases lastAfter_eq hlast with ⟨hu, -⟩ | ⟨hne, hlast'⟩
      · exact hu
      · rw [hcand] at hkeeps
        rcases hclear.kept w src now i x a u hhears hdata hfind hx hmove hkeeps hlast' with hu | ⟨s, hs, ha⟩
        · exact hu
        · exact absurd ha (hne s hs)
  · by_cases hdata : w.dataPort = 0
    · exact Or.inr hdata
    refine Or.inl fun haddr => hj ?_
    by_cases hmove : x.addr.port = w.dataPort
    · rcases rankedAddr_eq { m.core with now := now } (x.heardWith w.flags) cand now with hr | hr
      · cases hs : src with
        | some s =>
          refine absurd (Or.inl ?_) (hothers s hs hdata j y hj hy)
          rw [haddr.trans hr, hcand, hs]
          rfl
        | none =>
          refine h.locator j i y x hy hx ?_ ?_
          · rw [haddr.trans hr, hcand, hs, ← hmove]
            rfl
          · rw [haddr.trans hr, hcand]
            exact hdata
      · refine h.locator j i y x hy hx ?_ ?_
        · rw [haddr.trans hr, addr_heardWith, hcand, ← hmove]
        · rw [haddr.trans hr, hcand]
          exact hdata
    · rw [hcand] at haddr
      exact hclear.free w src now i x j y hhears hdata hfind hx hmove hy haddr

/-- Nobody is left to answer for the source of a stranger. -/
theorem Clear.stranger (hclear : m.Clear e) {s : Addr}
    (hhears : m.core.hears e = some (w, some s, now)) (hwf : m.core.records.WF)
    (hfind : m.core.records.find w.uuid = none) (hip : s.ip ≠ []) (hdata : w.dataPort ≠ 0)
    (hst : Edits { m.core with now := now } st')
    (hevicted : Fewer (Core.evictEndpoint { m.core with now := now } ⟨s.ip, w.dataPort⟩) st')
    (hnow : st'.now = now) {j : Nat} {z : Rec} (hz : st'.recAt j = some z) :
    ¬ st'.Answers z ⟨s.ip, w.dataPort⟩ := by
  refine unanswered (a := ⟨s.ip, w.dataPort⟩) hip hdata hst.fewer hevicted hnow hst.interval
    (fun k y hy hanswers => ?_) hz
  exact (hclear.source w s now k y hhears hdata hy (hwf.find_none hfind k y hy) hanswers).2

/-- A stranger's record is heard from its source alone. -/
theorem Sourced.met (h : Sourced ⟨{ m.core with now := now }, m.last⟩) (hwf : m.core.records.WF)
    (hclear : m.Clear e) {s : Addr} (hhears : m.core.hears e = some (w, some s, now))
    (hfind : m.core.records.find w.uuid = none) (hip : s.ip ≠ []) {st₁ : Core}
    (hx : st₁.recAt i = some x) (huuid : x.uuid = w.uuid) (haddr : x.addr = {})
    (hslot : x.slot = none) (hst : Edits { m.core with now := now } st₁)
    (hevicted : Fewer (Core.evictEndpoint { m.core with now := now } ⟨s.ip, w.dataPort⟩) st₁)
    (hnow₁ : st₁.now = now)
    (hst' : st' = st₁.hear env i w (some s) ⟨s.ip, w.dataPort⟩ haveBlob tooBig true now)
    (hinv : Inv (.any st') settled st') (hnow : st'.now = now) :
    Sourced ⟨st', lastAfter m.last w (some s)⟩ := by
  subst hst'
  have hmet : Sourced ⟨st₁, m.last⟩ := h.fewer hst.fewer hst.interval hnow₁.ge (hnow₁.symm ▸ h.clock)
  have hranked : st₁.rankedAddr (x.heardWith w.flags) ⟨s.ip, w.dataPort⟩ now = ⟨s.ip, w.dataPort⟩ := by
    unfold Core.rankedAddr
    rw [addr_heardWith, haddr]
    exact if_neg (fun hlen => absurd hlen.1 (by decide))
  have hothers : ∀ j y, w.dataPort ≠ 0 → st₁.recAt j = some y → ¬ st₁.Answers y ⟨s.ip, w.dataPort⟩ :=
    fun j y hdata hy => hclear.stranger hhears hwf hfind hip hdata hst hevicted hnow₁ hy
  rw [← hnow₁] at hinv hnow hranked ⊢
  refine hmet.hear hx huuid rfl hinv hnow (interval_hear ..) ?_ (fun a u _ _ hkeeps hlast => ?_)
    fun j y hj hy => ?_
  · intro s' hs' hdata j y _ hy
    cases hs'
    exact hothers j y hdata hy
  · rcases lastAfter_eq hlast with ⟨hu, -⟩ | ⟨hne, -⟩
    · exact hu
    · rcases hkeeps with ha | ⟨-, t, ⟨k, slot, hk, -⟩, -⟩
      · exact absurd (ha.trans hranked) (hne s rfl)
      · unfold Rec.heardWith at hk
        split at hk
        next => cases hk
        next => exact absurd (hk.symm.trans hslot) (Option.some_ne_none k)
  · by_cases hdata : w.dataPort = 0
    · exact Or.inr hdata
    · exact Or.inl fun hyaddr => hothers j y hdata hy (Or.inl (hyaddr.trans hranked))

/-- A stranger no record is made for. -/
theorem Sourced.refused (h : Sourced ⟨{ m.core with now := now }, m.last⟩) (hwf : m.core.records.WF)
    (hclear : m.Clear e) {s : Addr} (hhears : m.core.hears e = some (w, some s, now))
    (hfind : m.core.records.find w.uuid = none) (hip : s.ip ≠ [])
    (hst : Edits { m.core with now := now } st')
    (hevicted : Fewer (Core.evictEndpoint { m.core with now := now } ⟨s.ip, w.dataPort⟩) st')
    (hnow : st'.now = now) : Sourced ⟨st', lastAfter m.last w (some s)⟩ := by
  have hmet : Sourced ⟨st', m.last⟩ := h.fewer hst.fewer hst.interval hnow.ge (hnow.symm ▸ h.clock)
  refine ⟨hmet.clock, hmet.past, fun j z a u hz haip hport hanswers hlast => ?_, hmet.locator⟩
  rcases lastAfter_eq hlast with ⟨-, s', hs', ha⟩ | ⟨-, hlast'⟩
  · cases hs'
    rw [ha] at hanswers hport
    exact absurd hanswers (hclear.stranger hhears hwf hfind hip hport hst hevicted hnow hz)
  · exact hmet.last j z a u hz haip hport hanswers hlast'

/-- Every event that is clear keeps every record its sources'. -/
theorem Sourced.step (h : m.Sourced) (hinv : Inv (.any m.core) settled m.core) (hclear : m.Clear e) :
    (m.step e).Sourced := by
  have hinv' := inv_any_step hinv e
  have hnow' := now_step hinv e
  cases hhears : m.core.hears e with
  | none =>
    -- nothing is heard: the writes give no record a new source
    have hedits := edits_unheard m.core e hhears
    have hstep : m.step e = ⟨(m.core.step e).1, m.last⟩ := by
      unfold Announced.step
      rw [hhears]
    rw [hstep]
    have hclock : m.core.now ≤ (m.core.step e).1.now ∧ (m.core.step e).1.now < 2 ^ 64 := by
      rcases hnow' with hnow | ⟨hnow, -⟩
      · rw [hnow]
        cases hc : e.clock with
        | none => exact ⟨le_refl _, h.clock⟩
        | some now => exact hclear.clock now hc
      · rw [hnow]
        exact ⟨le_refl _, h.clock⟩
    exact h.fewer hedits.fewer hedits.interval hclock.1 hclock.2
  | some t =>
    obtain ⟨w, src, now⟩ := t
    obtain ⟨hclock, hbye, hleft, hips, env, haveBlob, tooBig, harrive⟩ := hears_some hhears
    obtain ⟨hle, hlt⟩ := hclear.clock now hclock
    have hstep : m.step e = ⟨(m.core.step e).1, lastAfter m.last w src⟩ := by
      unfold Announced.step
      rw [hhears]
    have hnow : (m.core.step e).1.now = now := by
      rcases hnow' with hnow | ⟨-, hnone⟩
      · rw [hnow, hclock]
        rfl
      · exact absurd (hhears.symm.trans hnone) (Option.some_ne_none _)
    have hfed : Edits m.core { m.core with now := now } := edits_rest rfl rfl rfl rfl
    have h₀ : Sourced ⟨{ m.core with now := now }, m.last⟩ := h.fewer hfed.fewer rfl hle hlt
    have hinv₀ : Inv (.any { m.core with now := now }) settled { m.core with now := now } :=
      hinv.reown rfl rfl rfl
    have hwf := hinv.store
    obtain ⟨st', hst'⟩ : ∃ st', st' = (m.core.step e).1 := ⟨_, rfl⟩
    rw [hstep, ← hst']
    rw [← hst'] at hinv' hnow
    have hleft' : Core.leftLately { m.core with now := now } w.uuid now = false := hleft
    rw [harrive] at hst'
    unfold Core.arrive at hst'
    rw [hbye, if_neg Bool.false_ne_true, hleft', if_neg Bool.false_ne_true] at hst'
    dsimp only at hst'
    cases hfind : m.core.records.find w.uuid with
    | some i =>
      -- a known peer
      obtain ⟨x, hx, huuid⟩ := Records.find_some hfind
      have hrec : Core.recAt { m.core with now := now } i = some x := hx
      have hor : (src.map Addr.ip).or (some x.addr.ip) = some ((src.map Addr.ip).getD x.addr.ip) := by
        cases src <;> rfl
      rw [hfind, Option.bind_some, hrec, Option.map_some, hor] at hst'
      exact h₀.known hwf hclear hhears hfind hx huuid rfl hst' hinv' hnow
    | none =>
      rw [hfind, Option.bind_none, Option.map_none, Option.or_none] at hst'
      cases hs : src with
      | none =>
        rw [hs, Option.map_none] at hst'
        rw [hst']
        exact h₀
      | some s =>
        have hip := hips s hs
        rw [hs, Option.map_some] at hst'
        rw [hs] at hhears
        dsimp only at hst'
        -- a stranger, who is refused or given a record
        rcases hmet : Core.meetStranger { m.core with now := now } env w ⟨s.ip, w.dataPort⟩ haveBlob with
          ⟨st₁, _ | i, v⟩
        · rw [hmet] at hst'
          dsimp only at hst'
          have hedits := edits_meetStranger { m.core with now := now } env w ⟨s.ip, w.dataPort⟩ haveBlob
          have hevicted := edits_evicted { m.core with now := now } env w ⟨s.ip, w.dataPort⟩ haveBlob
          rw [hmet] at hedits hevicted
          have hlast := (minor_stranger st₁ w ⟨s.ip, w.dataPort⟩ v now).edits
          rw [hst'] at hnow ⊢
          exact h₀.refused hwf hclear hhears hfind hip (hedits.trans hlast) (hevicted.trans hlast).fewer hnow
        · rw [hmet] at hst'
          dsimp only at hst'
          obtain ⟨⟨x, hx, huuid, haddr, hslot⟩, hedits, hevicted, hnow₁⟩ := met_leaves hinv₀ hfind hmet
          exact h₀.met hwf hclear hhears hfind hip hx huuid haddr hslot hedits hevicted hnow₁ hst' hinv' hnow

end Announced

/-! ## Every run -/

/-- On a run whose steps take no endpoint from another, every source is attributed to the peer
that announced from it last, and every locator is held once, in every state. -/
theorem attributed_runs (cfg : Config) (st : Core) (es : List Event) (h : Core.init cfg = some st)
    (hclear : Along Announced.step Announced.Clear ⟨st, fun _ => none⟩ es) :
    ∀ fs, fs <+: es → (run Announced.step ⟨st, fun _ => none⟩ fs).Attributed := by
  rintro fs ⟨gs, rfl⟩
  have hinv : Inv (.any st) settled st := (init_inv h).mono (fun _ hf => hf.elim) rfl
  have hsourced : Announced.Sourced ⟨st, fun _ => none⟩ := by
    have hnone := recAt_init h
    refine ⟨?_, fun i x _ _ hx => absurd hx (hnone i x), fun i x _ _ hx => absurd hx (hnone i x),
      fun i _ x _ hx => absurd hx (hnone i x)⟩
    unfold Core.init at h
    split at h
    next => cases h
    obtain ⟨records, -, rfl⟩ := Option.map_eq_some_iff.mp h
    show (0 : Nat) < 2 ^ 64
    decide
  obtain ⟨hruns, hends⟩ := run_invariant_along
    (fun m : Announced => m.Sourced ∧ Inv (.any m.core) settled m.core)
    (fun m e hm hp => ⟨hm.1.step hm.2 hp, inv_any_step hm.2 e⟩) fs ⟨st, fun _ => none⟩
    ⟨hsourced, hinv⟩ hclear.left
  exact hruns.attributed hends.seated

/-- A node with slots for two peers. -/
def paired : Config := { lone 1 with maxPeers := 2, maxRecords := 3, interval := 5000000 }

/-- A record is at the source only at the locator of a uuid not yet known, and a known uuid keeps
its data port. -/
def Core.Yields (st : Core) (w : Wire) (src : Option Addr) (x : Rec) : Prop :=
  (x.uuid = w.uuid → x.addr.port = w.dataPort) ∧
    (x.uuid ≠ w.uuid → ∀ s ∈ src,
      st.records.find w.uuid = none ∧ x.addr = ⟨s.ip, w.dataPort⟩ ∨ x.addr ≠ ⟨s.ip, w.dataPort⟩ ∧
        ∀ k ∈ x.slot, ∀ slot ∈ st.slots[k]?, ∀ p ∈ slot.paths, p.1 ≠ s.ip)

instance (st : Core) (w : Wire) (src : Option Addr) (x : Rec) : Decidable (st.Yields w src x) :=
  inferInstanceAs (Decidable (_ ∧ _))

/-- What can be run of `Clear`. -/
def Announced.Apart (m : Announced) (e : Event) : Prop :=
  (∀ now ∈ e.clock, m.core.now ≤ now ∧ now < 2 ^ 64) ∧
    ∀ t ∈ m.core.hears e, ∀ o ∈ m.core.records.recs, ∀ x ∈ o, m.core.Yields t.1 t.2.1 x

instance (m : Announced) (e : Event) : Decidable (m.Apart e) :=
  inferInstanceAs (Decidable (_ ∧ _))

/-- An event whose source every other record yields is clear. -/
theorem Announced.Apart.clear {m : Announced} {e : Event} (h : m.Apart e) : m.Clear e := by
  have hrec : ∀ {i x}, m.core.recAt i = some x → some x ∈ m.core.records.recs := fun hx =>
    List.mem_of_getElem? (Records.recs_of_get hx)
  -- a known peer keeps its data port
  have hport : ∀ {w src now i x}, m.core.hears e = some (w, src, now) →
      m.core.records.find w.uuid = some i → m.core.recAt i = some x → x.addr.port = w.dataPort := by
    intro w src now i x hhears hfind hx
    obtain ⟨y, hy, huuid⟩ := Records.find_some hfind
    cases Option.some.inj (hx.symm.trans hy)
    exact (h.2 _ hhears _ (hrec hx) x rfl).1 huuid
  refine ⟨h.1, ?_, ?_, ?_⟩
  · rintro w s now i x hhears - hx huuid (haddr | ⟨-, t, ⟨k, slot, hk, hslot, hmem⟩, -⟩) <;>
      rcases (h.2 _ hhears _ (hrec hx) x rfl).2 huuid s rfl with hevicted | ⟨hne, hpaths⟩
    · exact hevicted
    · exact absurd haddr hne
    · exact hevicted
    · exact absurd rfl (hpaths k hk slot hslot _ hmem)
  · exact fun w src now i x a u hhears _ hfind hx hne => absurd (hport hhears hfind hx) hne
  · exact fun w src now i x j y hhears _ hfind hx hne => absurd (hport hhears hfind hx) hne

/-- Peer 3 moves to another address, and peer 4 starts where peer 2 was. -/
def movedRun : List Event :=
  [.update 1 2000, announces 2 [10, 0, 0, 2] 2, announces 3 [10, 0, 0, 3] 3,
    announces 3 [10, 0, 0, 5] 4, announces 4 [10, 0, 0, 2] 5]

/-- The locator of peer 2 is peer 4's. -/
theorem attributed_runs_paired : ∃ st, Core.init paired = some st ∧
    (∀ fs, fs <+: movedRun → (run Announced.step ⟨st, fun _ => none⟩ fs).Attributed) ∧
    (run Announced.step ⟨st, fun _ => none⟩ movedRun).core.idForAddr [10, 0, 0, 2] 7 = some 3 := by
  obtain ⟨st, hst⟩ : ∃ st, Core.init paired = some st := ⟨_, rfl⟩
  have hrun : (Core.init paired).all fun st =>
      Along Announced.step Announced.Apart ⟨st, fun _ => none⟩ movedRun ∧
      (run Announced.step ⟨st, fun _ => none⟩ movedRun).core.idForAddr [10, 0, 0, 2] 7 = some 3 := by
    decide +kernel
  rw [hst, Option.all_some, decide_eq_true_iff] at hrun
  refine ⟨st, hst, attributed_runs paired st movedRun hst ?_, hrun.2⟩
  exact along_of_invariant (fun _ => True) (fun _ _ _ hp => ⟨trivial, hp.clear⟩) _ _ trivial hrun.1

/-- Peer 2 announces from 10.0.0.3, and peer 3 from a link-local address and then from 10.0.0.3. -/
def joined : List Event :=
  [.update 1 2000, announces 2 [10, 0, 0, 3] 2, announces 3 [169, 254, 0, 2] 3,
    announces 3 [10, 0, 0, 3] 4]

/-- Both hold that locator, and its lookup gives peer 2, where peer 3 announced last. -/
theorem joined_shared : ¬ ∀ (cfg : Config) (st : Core) (es : List Event), Core.init cfg = some st →
    (run Announced.step ⟨st, fun _ => none⟩ es).Attributed := by
  intro h
  obtain ⟨st, hst⟩ : ∃ st, Core.init paired = some st := ⟨_, rfl⟩
  have hrun : (Core.init paired).all fun st =>
      let m := run Announced.step ⟨st, fun _ => none⟩ joined
      m.core.idForAddr [10, 0, 0, 3] 7 = some 1 &&
        m.last ⟨[10, 0, 0, 3], 7⟩ = some (List.replicate 16 3) &&
          m.core.records.recs.all fun r => r.all fun x =>
            x.localId ≠ 1 || x.uuid ≠ List.replicate 16 3 := by decide +kernel
  rw [hst, Option.all_some, Bool.and_eq_true, Bool.and_eq_true, decide_eq_true_iff,
    decide_eq_true_iff] at hrun
  obtain ⟨i, x, hx, hid, huuid⟩ :=
    (h paired st joined hst).source _ 7 1 _ (by decide) hrun.1.1 hrun.1.2
  have hmem := List.mem_of_getElem? (Records.recs_of_get hx)
  have hother := List.all_eq_true.mp hrun.2 _ hmem
  rw [Option.all_some, hid, huuid] at hother
  exact absurd hother (by decide)

end Rant.Discovery
