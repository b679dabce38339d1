import Rant.Discovery.Moves
import Rant.Discovery.Writes
/-!
# What changes nothing that matters

The helpers that move no record: what is owed, offered, fetched or noted as trouble, what a
slot holds, and the admit hook's word. Each is `Minor`: it is `Quiet`, so it keeps the invariant
of the slots and the hooks, and a chain of writes, so it keeps what the writes keep.
-/

namespace Rant.Discovery

open Rant.Transport (Bytes)

variable {st : Core} {i : Nat} {r : Rec}

/-- A hook of a record that is there says nothing of another. -/
theorem says_rec (hr : st.recAt i = some r) {m : Mark} (hp : m.plain = true)
    (hid : m.hookId = some r.localId) : st.Says m := by
  refine ⟨hp, fun id hm => Or.inr ⟨i, r, hr, ?_⟩⟩
  rw [hid] at hm
  exact Option.some.inj hm

/-- What a helper that moves no record does. -/
structure Minor (st st' : Core) : Prop where
  quiet : Quiet st st'
  edits : Edits st st'

theorem Minor.refl (st : Core) : Minor st st := ⟨Quiet.refl st, Edits.refl st⟩

theorem Minor.trans {a b c : Core} (h : Minor a b) (g : Minor b c) : Minor a c :=
  ⟨h.quiet.trans g.quiet, h.edits.trans g.edits⟩

/-- A write of neither the records, the slots, the asks nor the hooks. -/
theorem Minor.of {st' : Core} (hr : st'.records = st.records) (hs : st'.slots = st.slots)
    (ht : st'.trace = st.trace) (ho : st'.own = st.own) (ha : st'.asks = st.asks)
    (hi : st'.cfg.interval = st.cfg.interval) : Minor st st' :=
  ⟨Quiet.of hr hs ht ho, edits_rest hr hs ha hi⟩

/-- A write of a record's own notes. -/
theorem minor_modRec (st : Core) (i : Nat) {f : Rec → Rec} (hc : ∀ x, (f x).core = x.core)
    (hb : ∀ x, (f x).bond = x.bond) : Minor st (st.modRec i f) :=
  ⟨quiet_modRec fun x _ => hc x, edits_modRec st i hb fun x => place_slot (core_place (hc x))⟩

theorem minor_note {m : Mark} (h : st.Says m) : Minor st (st.note m) :=
  ⟨quiet_note h, edits_note st m⟩

theorem minor_settle (st : Core) (i : Nat) (bits : Owed) : Minor st (st.settle i bits) :=
  ⟨quiet_settle st i bits, edits_settle st i bits⟩

theorem minor_oweReply (st : Core) (i due : Nat) : Minor st (st.owe i oweReply due) :=
  ⟨quiet_owe st i oweReply due, (Edit.oweReply st i due).edits⟩

/-- A write of a slot that keeps its holder and its paths. -/
theorem minor_modSlot (st : Core) (s : Nat) {f : Slot → Slot}
    (hh : ∀ slot, (f slot).holder = slot.holder) (hp : ∀ slot, (f slot).paths = slot.paths) :
    Minor st (st.modSlot s f) :=
  ⟨quiet_modSlot hh, (Edit.modSlot st s f hp).edits⟩

theorem minor_foldl {β : Type} {f : Core → β → Core} (hf : ∀ st b, Minor st (f st b)) (bs : List β)
    (st : Core) : Minor st (bs.foldl f st) := by
  induction bs generalizing st with
  | nil => exact Minor.refl st
  | cons b bs ih => exact (hf st b).trans (ih _)

theorem minor_troubleNote (st : Core) (kind : ErrorKind) (a : Addr) (value peer : Nat) :
    Minor st (st.troubleNote kind a value peer) := by
  unfold Core.troubleNote
  split
  next => exact Minor.of rfl rfl rfl rfl rfl rfl
  dsimp only
  split
  next => exact Minor.of rfl rfl rfl rfl rfl rfl
  split
  next => exact Minor.of rfl rfl rfl rfl rfl rfl
  next => exact Minor.of rfl rfl rfl rfl rfl rfl

theorem minor_wireMismatch (st : Core) (src : Option Addr) (version : Nat) :
    Minor st (st.wireMismatch src version) := by
  unfold Core.wireMismatch
  dsimp only
  have h := minor_troubleNote st .wireVersion ((Core.sourceOf src).getD {}) version 0
  split
  next =>
    refine h.trans (minor_note ⟨rfl, fun id hid => ?_⟩)
    cases hid
    exact Or.inl rfl
  next => exact h

theorem minor_refetchDone (st : Core) (i : Nat) : Minor st (st.refetchDone i) := by
  have hmod : Minor st (st.modRec i fun x => { x with refetch := false }) := minor_modRec _ i (fun _ => rfl) fun _ => rfl
  rcases st.refetchDone_cases i with h | h | h <;> rw [h]
  · exact Minor.refl st
  · exact hmod
  · exact hmod.trans (Minor.of rfl rfl rfl rfl rfl rfl)

theorem minor_tooBig (st : Core) (i : Nat) (addr : Addr) (wanted : Nat) :
    Minor st (st.tooBig i addr wanted) := by
  unfold Core.tooBig
  split
  next => exact Minor.refl st
  next x hx =>
    dsimp only
    have h1 : Minor st (st.modRec i fun x => { x with tooBig := true }) := minor_modRec _ i (fun _ => rfl) fun _ => rfl
    have h2 := (h1.trans (minor_refetchDone _ i)).trans (minor_settle _ i oweFetch)
    have h3 := h2.trans (minor_troubleNote _ .peerMetaTooBig addr wanted x.localId)
    refine h3.trans ?_
    obtain ⟨y, hy, hc⟩ := h3.quiet.fwd hx
    refine minor_note (says_rec hy rfl ?_)
    rw [place_localId (core_place hc)]
    rfl

theorem minor_takeName (st : Core) (i : Nat) (name : Bytes) : Minor st (st.takeName i name) :=
  minor_modRec _ i (fun _ => rfl) fun _ => rfl

theorem quiet_ask (st : Core) (i : Nat) (bits : Owed) (now : Nat) : Quiet st (st.ask i bits now) := by
  rcases st.ask_cases i bits now with h | h | h <;> rw [h]
  · exact Quiet.refl st
  · exact quiet_owe st i bits now
  · have hmod : Quiet st (st.modRec i fun x =>
        { x with askTries := if x.askMissed then 1 else askTriesMax }) := quiet_modRec fun _ _ => rfl
    exact (hmod.trans (quiet_noteAsk _ _)).trans (quiet_owe _ i bits now)

theorem minor_ask (st : Core) (i : Nat) {bits : Owed} (hb : bits.ask = true) (now : Nat) :
    Minor st (st.ask i bits now) :=
  ⟨quiet_ask st i bits now, edits_ask st i hb now⟩

theorem minor_fetchCheck (st : Core) (i now : Nat) : Minor st (st.fetchCheck i now) := by
  unfold Core.fetchCheck
  split
  next => exact Minor.refl st
  split
  next => exact minor_settle st i oweFetch
  split
  next => exact minor_ask st i rfl now
  next => exact Minor.refl st

theorem minor_offer (st : Core) (i now : Nat) : Minor st (st.offer i now) := by
  have h : Minor st (st.modRec i fun x => { x with refetch := true }) := minor_modRec _ i (fun _ => rfl) fun _ => rfl
  exact h.trans (minor_fetchCheck _ i now)

theorem minor_offerFrom (now : Nat) : ∀ (is : List Nat) (k : Nat) (st : Core),
    Minor st (Core.offerFrom now is k st) := by
  intro is
  induction is with
  | nil =>
    intro k st
    unfold Core.offerFrom
    exact Minor.refl st
  | cons i is ih =>
    intro k st
    cases k with
    | zero =>
      unfold Core.offerFrom
      exact Minor.refl st
    | succ k =>
      unfold Core.offerFrom
      split
      next => exact (minor_offer st i now).trans (ih k _)
      next => exact ih (k + 1) st

theorem minor_offerSlots (st : Core) (now : Nat) : Minor st (st.offerSlots now) := by
  unfold Core.offerSlots
  have h : Minor st { st with slotsOpened := false } := Minor.of rfl rfl rfl rfl rfl rfl
  exact h.trans (minor_offerFrom now _ _ _)

theorem minor_offerOpened (st : Core) (now : Nat) : Minor st (st.offerOpened now) := by
  unfold Core.offerOpened
  split
  next => exact minor_offerSlots st now
  next => exact Minor.refl st

theorem minor_slotStore (st : Core) (env : Env) (s : Nat) (blob : Bytes) :
    Minor st (st.slotStore env s blob).1 := by
  unfold Core.slotStore
  split
  next => exact Minor.refl st
  split
  next =>
    split
    next => exact minor_modSlot _ s (fun _ => rfl) fun _ => rfl
    next => exact Minor.refl st
  next => exact minor_modSlot _ s (fun _ => rfl) fun _ => rfl

/-- The hook's word on a record moves nothing, and leaves the record judged. -/
theorem quiet_verdict (hr : st.recAt i = some r) (env : Env) (blob : Bytes) (version : Nat) :
    Quiet st (st.verdict env i blob version).1 ∧
      Mark.judged r.localId r.uuid version ∈ (st.verdict env i blob version).1.trace := by
  unfold Core.verdict
  rw [hr]
  dsimp only
  have hasked : Quiet st (if st.cfg.admits then st.note (.asked r.localId blob version) else st) := by
    split
    next => exact quiet_note (says_rec hr rfl rfl)
    next => exact Quiet.refl st
  obtain ⟨st', hst'⟩ : ∃ st', st' =
      if st.cfg.admits then st.note (.asked r.localId blob version) else st := ⟨_, rfl⟩
  rw [← hst'] at hasked ⊢
  have hjudged : Quiet st' (st'.note (.judged r.localId r.uuid version)) :=
    quiet_note ⟨rfl, fun id hid => (by cases hid)⟩
  refine ⟨(hasked.trans hjudged).trans (quiet_modRec fun _ _ => rfl), ?_⟩
  show _ ∈ st'.trace ++ [Mark.judged r.localId r.uuid version]
  exact List.mem_append_right _ (List.mem_singleton.mpr rfl)

theorem minor_strangerVerdict (st : Core) (env : Env) (w : Wire) (haveBlob : Bool) :
    Minor st (st.strangerVerdict env w haveBlob).1 := by
  unfold Core.strangerVerdict
  split
  next => exact Minor.refl st
  split
  next => exact Minor.refl st
  refine minor_note ⟨rfl, fun id hid => ?_⟩
  cases hid
  exact Or.inl rfl

theorem minor_looseOwe (st : Core) (a : Addr) (due : Nat) (full : Bool) :
    Minor st (st.looseOwe a due full) := by
  unfold Core.looseOwe
  split
  next => exact Minor.of rfl rfl rfl rfl rfl rfl
  split
  next => exact Minor.refl st
  next => exact Minor.of rfl rfl rfl rfl rfl rfl

theorem minor_leftNote (st : Core) (uuid : Bytes) (now : Nat) : Minor st (st.leftNote uuid now) := by
  unfold Core.leftNote
  dsimp only
  split
  next => exact Minor.of rfl rfl rfl rfl rfl rfl
  next => exact Minor.of rfl rfl rfl rfl rfl rfl

theorem minor_stranger (st : Core) (w : Wire) (addr : Addr) (verdict : Admit) (now : Nat) :
    Minor st (st.stranger w addr verdict now) := by
  unfold Core.stranger
  dsimp only
  have h1 : Minor st st.forgot := Minor.of rfl rfl rfl rfl rfl rfl
  have h2 : Minor st (if (decide (verdict = .yes)) = true then
      (st.forgot.troubleNote .peerRefused addr st.forgot.slots.length 0).note
        (.error .peerRefused 0 addr 0) else st.forgot) := by
    split
    next =>
      refine (h1.trans (minor_troubleNote _ _ _ _ _)).trans (minor_note ⟨rfl, fun id hid => ?_⟩)
      cases hid
      exact Or.inl rfl
    next => exact h1
  split
  next => exact (h2.trans (minor_looseOwe _ _ _ _)).trans (minor_offerOpened _ now)
  next => exact h2.trans (minor_offerOpened _ now)

theorem minor_oweHeard (st : Core) (i : Nat) (w : Wire) (now : Nat) : Minor st (st.oweHeard i w now) := by
  unfold Core.oweHeard
  split
  next => exact Minor.refl st
  split
  next => exact minor_oweReply _ _ _
  split
  next => exact minor_oweReply _ _ _
  next => exact Minor.refl st

theorem minor_hearOne (st : Core) (i flags : Nat) : Minor st (st.hearOne i flags) := by
  unfold Core.hearOne
  split
  next => exact (minor_settle st i oweMatch).trans (minor_modRec _ i (fun _ => rfl) fun _ => rfl)
  next => exact Minor.refl st

theorem quiet_askSent (st : Core) (i now : Nat) : Quiet st (st.askSent i now) := by
  have hsent := quiet_noteAsk st (.sent i now)
  rcases st.askSent_cases i now with h | ⟨st', rfl, h⟩ | ⟨st', rfl, h⟩
  · rw [h]
    exact Quiet.refl st
  · rw [h]
    have hmod : Quiet (st.noteAsk (.sent i now)) ((st.noteAsk (.sent i now)).modRec i fun x =>
        { x with askTries := x.askTries - 1 }) := quiet_modRec fun _ _ => rfl
    exact (hsent.trans hmod).trans (quiet_owes (Records.requeue_owes _ i _))
  · have hmiss := (hsent.trans (quiet_modRec (i := i) (f := fun x => { x with askMissed := true })
      fun _ _ => rfl)).trans (quiet_settle _ i oweAsk)
    rcases h with h | h <;> rw [h]
    · exact hmiss
    · exact hmiss.trans (minor_refetchDone _ i).quiet

theorem quiet_pollTargeted (st : Core) (now cap : Nat) :
    Quiet { st with now := now } (st.pollTargeted now cap).1 := by
  unfold Core.pollTargeted
  dsimp only
  have h := Quiet.refl { st with now := now }
  split
  next => exact h
  split
  next => exact h.trans (Quiet.of rfl rfl rfl rfl)
  split
  next => exact h
  next k _ =>
    split
    next => exact h
    next => exact (h.trans (quiet_settle _ k oweReply)).trans (quiet_askSent _ k now)

theorem minor_refetchAt (check : Option (Bytes → Bool)) (st : Core) (i : Nat) :
    Minor st (Core.refetchAt check st i) := by
  unfold Core.refetchAt
  split
  next => exact Minor.refl st
  split
  next => exact Minor.refl st
  split
  next => exact Minor.refl st
  next => exact minor_offer st i st.now

theorem minor_regrownAt (st : Core) (i : Nat) : Minor st (st.regrownAt i) := by
  unfold Core.regrownAt
  split
  next =>
    have h : Minor st (st.modRec i fun x => { x with tooBig := false, refetch := true }) :=
      minor_modRec _ i (fun _ => rfl) fun _ => rfl
    exact h.trans (minor_fetchCheck _ i st.now)
  next => exact Minor.refl st

theorem minor_regrown (st : Core) (oldSlots oldMetaCap : Nat) :
    Minor st (st.regrown oldSlots oldMetaCap) := by
  unfold Core.regrown
  obtain ⟨st', hst'⟩ : ∃ st', st' = if st.metaCap > oldMetaCap then
      (List.range st.records.cap).foldl Core.regrownAt st else st := ⟨_, rfl⟩
  have h : Minor st st' := by
    rw [hst']
    split
    next => exact minor_foldl minor_regrownAt _ st
    next => exact Minor.refl st
  rw [← hst']
  dsimp only
  split
  next => exact h.trans (minor_offerSlots _ _)
  next => exact h

/-- More slots, which nobody holds. -/
theorem minor_migrate (st : Core) (maxPeers metaCap : Nat) (hlt : metaCap < 2 ^ 16) :
    Minor st (st.migrate maxPeers metaCap hlt) := by
  unfold Core.migrate
  split
  next => exact Minor.refl st
  dsimp only
  refine Minor.trans ?_ (minor_regrown _ _ _)
  refine ⟨⟨fun _ => rfl, fun h => h.congr rfl rfl rfl rfl rfl fun _ => rfl, rfl, fun s => ?_,
    ⟨[], (List.append_nil _).symm, fun m hm => (by cases hm)⟩, rfl⟩,
    (Edit.grow st { st.cfg with maxPeers := maxPeers, metaCap := metaCap, metaCapLt := hlt } rfl
      (Nat.max st.records.max maxPeers) (maxPeers - st.slots.length)).edits⟩
  show ((st.slots ++ List.replicate _ _)[s]?).bind Slot.holder = (st.slots[s]?).bind Slot.holder
  by_cases hs : s < st.slots.length
  · rw [List.getElem?_append_left hs]
  · rw [List.getElem?_append_right (Nat.le_of_not_lt hs), List.getElem?_replicate,
      List.getElem?_eq_none (Nat.le_of_not_lt hs)]
    split <;> rfl

end Rant.Discovery
