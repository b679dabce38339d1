import Rant.Discovery.Life
/-!
# The moves of a record

What comes and goes: a record added, removed, given a slot, given its slot back, and what its
hooks hear. Each move keeps `Inv`, under the override that says how far the record is.

A move is told in two halves. What it does to the state is said by what is read after it:
`recAt_giveBack`, `slotRec_peerGone`, `trace_peerGone`. What its hooks add to the trace is said by
`Told`: each id was given once, has the life its record is in, and is silent when it ended. So
`Inv.giveBack`, `Inv.peerGone` and `Inv.addRecord` are what the handlers cite of them.
-/

namespace Rant.Discovery

open Rant.Transport (Bytes)

variable {A : Ground} {x y : Override} {st : Core} {i : Nat} {r : Rec}

/-- The record at `i` has status `v`. -/
def Override.set (x : Override) (i : Nat) (v : Bool × Phase) : Override :=
  fun j => if j = i then some v else x j

@[simp] theorem Override.set_self (x : Override) (i : Nat) (v : Bool × Phase) :
    x.set i v i = some v := if_pos rfl

theorem Override.set_ne (x : Override) {i j : Nat} (h : j ≠ i) (v : Bool × Phase) :
    x.set i v j = x j := if_neg h

/-- An override that says the same of every record. -/
theorem Inv.agree (h : Inv A x st)
    (hxy : ∀ j q, st.recAt j = some q → (x j).getD q.status = (y j).getD q.status) : Inv A y st := by
  refine ⟨h.store, h.seats, h.calm, h.fair, fun hlt => ?_, h.own⟩
  have ht := h.told hlt
  refine ⟨ht.next, ht.range, ht.ids, fun j q hq => ?_, ht.rest, ht.ended, ht.alive, ht.past, ht.born⟩
  rw [← hxy j q hq]
  exact ht.tie j q hq

variable {v : Bool × Phase}

/-- A record that is in step needs no override. -/
theorem Inv.settle (h : Inv A (x.set i v) st) (hr : st.recAt i = some r)
    (hv : v = r.status) (hx : x i = none) : Inv A x st := by
  refine h.agree fun j q hq => ?_
  by_cases hj : j = i
  · subst hj
    rw [hr] at hq
    cases hq
    rw [Override.set_self, hx, hv]
    rfl
  · rw [Override.set_ne x hj]

/-! ## Its hooks -/

/-- A hook of a record's life, but not its last. -/
def Mark.live : Mark → Bool
  | .seen _ _ _ => true
  | .up _ _ _ => true
  | .down _ .drop => true
  | .down _ .giveBack => true
  | _ => false

variable {m : Mark} {id : Nat}

/-- A hook about another id tells nothing of this one. -/
theorem next_other (hid : m.hookId ≠ some id) (h : Option Bool)
    (p : Option Phase) : heardNext id h m = h ∧ phaseNext id p m = p := by
  cases m <;> first
    | exact ⟨rfl, rfl⟩
    | refine ⟨?_, ?_⟩ <;> first
        | rfl
        | exact if_neg fun hc => hid (congrArg some hc)

/-- A hook of a live peer ends none. -/
theorem live_ends (h : m.live = true) (id : Nat) : ¬ m.ends id := by
  intro hend
  cases m with
  | down id' reason => cases reason <;> first | exact hend | cases h
  | seen | up | asked | error | judged | added | removed | taken => first | exact hend | cases h

/-- Only an add hands out an id. -/
theorem given_append (t : List Mark) (m : Mark) (h : ∀ id u, m ≠ .added id u) :
    given (t ++ [m]) = given t := by
  unfold given
  rw [List.countP_append]
  cases m <;> first | rfl | exact absurd rfl (h _ _)

/-- One entry of the trace that brings no record and ends none. -/
theorem Inv.mark (h : Inv A x st) (hadd : ∀ id u, m ≠ .added id u)
    (hends : ∀ id, ¬ m.ends id) (hfair : m.Fair)
    (hhook : ∀ id, m.hookId = some id → ∃ j q, st.recAt j = some q ∧ q.localId = id)
    (htie : Told x st → ∀ j q, st.recAt j = some q →
      heardNext q.localId (some ((x j).getD q.status).1) m = some ((y j).getD q.status).1 ∧
        phaseNext q.localId (some ((x j).getD q.status).2) m = some ((y j).getD q.status).2) :
    Inv A y (st.note m) := by
  have hmem : ∀ {n : Mark}, n ∈ st.trace → n ∈ (st.note m).trace := fun hn =>
    List.mem_append_left _ hn
  refine ⟨h.store, h.seats, fun j q hq => ?_, fun n hn => ?_, fun hlt => ?_, h.own⟩
  · have hc := h.calm j q hq
    exact ⟨hc.want, hc.full, hc.version, fun hm => (hc.judged hm).imp
      (fun hv => hv.imp fun _ => hmem) id⟩
  · rcases List.mem_append.mp hn with hn | hn
    · exact h.fair n hn
    · rw [List.mem_singleton.mp hn]
      exact hfair
  · have hgiven : given (st.note m).trace = given st.trace := given_append st.trace m hadd
    have ht := h.told (hgiven ▸ hlt)
    refine ⟨?_, ?_, ht.ids, fun j q hq => ?_, fun id hno => ?_, ?_, fun j q hq n hn => ?_,
      fun n hn id hend => ?_, fun id u hn => ?_⟩
    · rw [hgiven]
      exact ht.next
    · rw [hgiven]
      exact ht.range
    · obtain ⟨h1, h2⟩ := ht.tie j q hq
      show heard q.localId (st.trace ++ [m]) = _ ∧ phase q.localId (st.trace ++ [m]) = _
      rw [heard_append, phase_append, h1, h2]
      exact htie ht j q hq
    · obtain ⟨h1, h2⟩ := ht.rest id hno
      have hne : m.hookId ≠ some id := fun hid =>
        (hhook id hid).elim fun j hj => hj.elim fun q hq => hno j q hq.1 hq.2
      show heard id (st.trace ++ [m]) = _ ∧ phase id (st.trace ++ [m]) = _
      rw [heard_append, phase_append, h1, h2]
      exact next_other hne _ _
    · show Ended (st.trace ++ [m])
      rw [ended_append]
      refine ⟨ht.ended, fun a ha id hend hid => ?_⟩
      obtain ⟨j, q, hq, hqid⟩ := hhook id hid
      exact ht.alive j q hq a ha (hqid ▸ hend)
    · rcases List.mem_append.mp hn with hn | hn
      · exact ht.alive j q hq n hn
      · rw [List.mem_singleton.mp hn]
        exact hends _
    · rw [hgiven]
      rcases List.mem_append.mp hn with hn | hn
      · exact ht.past n hn id hend
      · rw [List.mem_singleton.mp hn] at hend
        exact absurd hend (hends id)
    · rcases List.mem_append.mp hn with hn | hn
      · exact (ht.born id u hn).imp hmem (fun hx => hx)
      · exact absurd (List.mem_singleton.mp hn).symm (hadd id u)

/-- A hook of a record that is there. -/
theorem Inv.hook (h : Inv A x st) (hr : st.recAt i = some r) (hid : m.hookId = some r.localId)
    (hlive : m.live = true)
    (hh : heardNext r.localId (some ((x i).getD r.status).1) m = some v.1)
    (hp : phaseNext r.localId (some ((x i).getD r.status).2) m = some v.2) :
    Inv A (x.set i v) (st.note m) := by
  refine h.mark (fun id u hm => ?_) (live_ends hlive) ?_ (fun id hm => ?_) fun ht j q hq => ?_
  · rw [hm] at hlive
    cases hlive
  · cases m <;> trivial
  · exact ⟨i, r, hr, Option.some.inj (hid.symm.trans hm)⟩
  · by_cases hj : j = i
    · subst hj
      rw [hr] at hq
      cases hq
      rw [Override.set_self]
      exact ⟨hh, hp⟩
    · have hne : m.hookId ≠ some q.localId := by
        rw [hid]
        exact fun hc => hj (ht.ids j i q r hq hr (Option.some.inj hc).symm)
      rw [Override.set_ne x hj]
      exact next_other hne _ _

variable {s : Nat}

/-- A slot taken fairly. -/
theorem Inv.taken (h : Inv A x st) {held : Option (RecState × Bool)} {verdict : Admit}
    (hf : (Mark.taken s held verdict).Fair) : Inv A x (st.note (.taken s held verdict)) :=
  h.mark (fun id u hm => (by cases hm)) (fun id hc => hc) hf (fun id hm => (by cases hm))
    fun _ j q _ => ⟨rfl, rfl⟩

/-! ## Its state and its slot -/

/-- A record that moved keeps the status said out loud. -/
theorem Inv.shift (h : Inv A x st) (hr : st.recAt i = some r) (hx : x i = some v)
    {st' : Core} {r' : Rec} (htrace : st'.trace = st.trace) (hown : st'.own = st.own)
    (hnext : st'.records.nextId = st.records.nextId) (hwf : st'.records.WF)
    (hget : ∀ j, st'.recAt j = if j = i then some r' else st.recAt j)
    (hid : Records.idOf r' = Records.idOf r) (hcalm : r'.Calm A st.trace)
    (hseats : ∀ s j, st'.slotRec s = some j ↔ ∃ q, st'.recAt j = some q ∧ q.slot = some s) :
    Inv A x st' := by
  -- the records are those there were, under their ids
  have hbwd : ∀ {j q'}, st'.recAt j = some q' → ∃ q, st.recAt j = some q ∧
      Records.idOf q' = Records.idOf q ∧ (j ≠ i → q' = q) := by
    intro j q' hq'
    rw [hget] at hq'
    split at hq'
    next hj =>
      cases hq'
      exact ⟨r, hj ▸ hr, hid, fun hne => absurd hj hne⟩
    next => exact ⟨q', hq', rfl, fun _ => rfl⟩
  have hfwd : ∀ {j q}, st.recAt j = some q → ∃ q', st'.recAt j = some q' ∧
      Records.idOf q' = Records.idOf q := by
    intro j q hq
    rw [hget]
    split
    next hj =>
      rw [hj, hr] at hq
      cases hq
      exact ⟨r', rfl, hid⟩
    next => exact ⟨q, hq, rfl⟩
  refine ⟨hwf, hseats, fun j q' hq' => ?_, ?_, fun hlt => ?_, hown.trans h.own⟩
  · rw [htrace]
    rw [hget] at hq'
    split at hq'
    next =>
      cases hq'
      exact hcalm
    next => exact h.calm j q' hq'
  · rw [htrace]
    exact h.fair
  · rw [htrace] at hlt
    have ht := h.told hlt
    have hlocal : ∀ {q q' : Rec}, Records.idOf q' = Records.idOf q → q'.localId = q.localId :=
      fun hq => congrArg Prod.snd hq
    refine ⟨?_, fun j q' hq' => ?_, fun j k q' p' hq' hp' hid => ?_, fun j q' hq' => ?_,
      fun id hno => ?_, ?_, fun j q' hq' => ?_, ?_, fun id u hm => ?_⟩
    · rw [hnext, htrace]
      exact ht.next
    · obtain ⟨q, hq, heq, -⟩ := hbwd hq'
      rw [htrace, hlocal heq]
      exact ht.range j q hq
    · obtain ⟨q, hq, heq, -⟩ := hbwd hq'
      obtain ⟨p, hp, hpeq, -⟩ := hbwd hp'
      rw [hlocal heq, hlocal hpeq] at hid
      exact ht.ids j k q p hq hp hid
    · obtain ⟨q, hq, heq, hsame⟩ := hbwd hq'
      have htie := ht.tie j q hq
      rw [htrace]
      by_cases hj : j = i
      · rw [hj, hx] at htie ⊢
        rw [hlocal heq]
        exact htie
      · rw [hsame hj]
        exact htie
    · rw [htrace]
      refine ht.rest id fun j q hq hid => ?_
      obtain ⟨q', hq', heq⟩ := hfwd hq
      exact hno j q' hq' ((hlocal heq).trans hid)
    · rw [htrace]
      exact ht.ended
    · obtain ⟨q, hq, heq, -⟩ := hbwd hq'
      rw [htrace, hlocal heq]
      exact ht.alive j q hq
    · rw [htrace]
      exact ht.past
    · rw [htrace] at hm ⊢
      rcases ht.born id u hm with hrem | ⟨j, q, hq, hid, hu⟩
      · exact Or.inl hrem
      · obtain ⟨q', hq', heq⟩ := hfwd hq
        exact Or.inr ⟨j, q', hq', (hlocal heq).trans hid, (congrArg Prod.fst heq).trans hu⟩

/-- A record whose own fields changed, with its state and its slot. -/
theorem Inv.modRec (h : Inv A x st) (hr : st.recAt i = some r) {f : Rec → Rec}
    (hp : (f r).place = r.place) (hc : (f r).Calm A st.trace) : Inv A x (st.modRec i f) := by
  refine h.same (same_modRec fun q hq => ?_) fun j q hq => ?_
  · rw [hr] at hq
    cases hq
    exact hp
  · rw [Core.recAt_modRec] at hq
    split at hq
    next hj =>
      rw [hj, hr] at hq
      cases hq
      exact hc
    next => exact h.calm j q hq

theorem nextId_setState (records : Records) (i : Nat) (state : RecState) :
    (records.setState i state).nextId = records.nextId := by
  unfold Records.setState
  split
  next => rfl
  split
  next => rfl
  next => rfl

/-- A record that turns active or drops keeps what is known of it. -/
theorem Inv.setState (h : Inv A x st) (hr : st.recAt i = some r) (hx : x i = some v)
    (state : RecState) : Inv A x { st with records := st.records.setState i state } := by
  have hget : ∀ j, Core.recAt { st with records := st.records.setState i state } j =
      if j = i then some { r with state := state } else st.recAt j := by
    intro j
    show (st.records.setState i state).get j = _
    rw [Records.get_setState]
    split
    next hj =>
      rw [hj]
      exact congrArg (Option.map _) hr
    next => rfl
  have hc := h.calm i r hr
  refine h.shift hr hx rfl rfl (nextId_setState st.records i state) (h.store.setState i state) hget rfl
    ⟨hc.want, hc.full, hc.version, hc.judged⟩ fun s j => ?_
  show st.slotRec s = some j ↔ _
  rw [h.seats s j, hget]
  by_cases hj : j = i
  · subst hj
    rw [if_pos rfl, hr]
    simp
  · rw [if_neg hj]

theorem Core.slotRec_modSlot (st : Core) (s : Nat) (f : Slot → Slot) (t : Nat) :
    (st.modSlot s f).slotRec t =
      if t = s then (st.slots[t]?).bind (fun slot => (f slot).holder) else st.slotRec t := by
  show ((st.slots.modify s f)[t]?).bind Slot.holder = _
  rw [List.getElem?_modify]
  by_cases hts : t = s
  · subst hts
    cases st.slots[t]? with
    | none => simp
    | some slot => simp
  · rw [if_neg hts]
    unfold Core.slotRec
    cases st.slots[t]? with
    | none => rfl
    | some slot => simp [Ne.symm hts]

/-- The record leaves its slot. -/
theorem Inv.unbind (h : Inv A x st) (hr : st.recAt i = some r) (hs : r.slot = some s)
    (hx : x i = some v) :
    Inv A x ((st.modSlot s fun slot => { slot with holder := none }).modRec i fun q =>
      { q with slot := none }) := by
  have hget : ∀ j, Core.recAt ((st.modSlot s fun slot => { slot with holder := none }).modRec i
      fun q => { q with slot := none }) j =
      if j = i then some { r with slot := none } else st.recAt j := by
    intro j
    rw [Core.recAt_modRec]
    split
    next hj =>
      rw [hj]
      exact congrArg (Option.map _) hr
    next => rfl
  have hc := h.calm i r hr
  have hwant : r.want = .no := hc.want (by rw [hs]; exact Option.some_ne_none s)
  have hmine : st.slotRec s = some i := (h.seats s i).mpr ⟨r, hr, hs⟩
  refine h.shift hr hx rfl rfl rfl (h.store.modify i _ fun q _ => rfl) hget rfl
    ⟨fun hne => absurd rfl hne, fun _ => ⟨rfl, hwant⟩, hc.version, hc.judged⟩ fun t j => ?_
  show (st.modSlot s fun slot => { slot with holder := none }).slotRec t = some j ↔ _
  rw [Core.slotRec_modSlot, hget]
  by_cases ht : t = s
  · subst ht
    rw [if_pos rfl]
    constructor
    · intro hc
      cases hslot : st.slots[t]? with
      | none =>
        rw [hslot] at hc
        cases hc
      | some slot =>
        rw [hslot] at hc
        cases hc
    · rintro ⟨q, hq, hqs⟩
      split at hq
      next =>
        cases hq
        cases hqs
      next hj =>
        have := (h.seats t j).mpr ⟨q, hq, hqs⟩
        rw [hmine] at this
        exact absurd (Option.some.inj this).symm hj
  · rw [if_neg ht, h.seats t j]
    by_cases hj : j = i
    · subst hj
      rw [if_pos rfl, hr]
      simp [hs, Ne.symm ht]
    · rw [if_neg hj]

/-- A record without a slot takes a free one. -/
theorem Inv.slotBind (h : Inv A x st) (hr : st.recAt i = some r) (hnone : r.slot = none)
    (hfull : r.full = false) (hs : st.slotRec s = none) (hlt : s < st.slots.length)
    (hx : x i = some v) : Inv A x (st.slotBind s i) := by
  have hget : ∀ j, (st.slotBind s i).recAt j = if j = i then
      some { r with slot := some s, metaVersion := 0, want := .no, refetch := false }
      else st.recAt j := by
    intro j
    unfold Core.slotBind
    dsimp only
    rw [Core.recAt_modRec]
    split
    next hj =>
      rw [hj]
      exact congrArg (Option.map _) hr
    next => rfl
  refine h.shift hr hx rfl rfl rfl (h.store.modify i _ fun q _ => rfl) hget rfl
    ⟨fun _ => rfl, fun hf => ?_, Nat.zero_le _, fun hm => absurd rfl hm⟩ fun t j => ?_
  · have hf' : r.full = true := hf
    rw [hfull] at hf'
    cases hf'
  · show (st.modSlot s fun slot => { blobCap := slot.blobCap, holder := some i }).slotRec t = some j ↔ _
    rw [Core.slotRec_modSlot, hget]
    by_cases ht : t = s
    · subst ht
      rw [if_pos rfl, List.getElem?_eq_getElem hlt]
      show some i = some j ↔ _
      by_cases hj : j = i
      · subst hj
        rw [if_pos rfl]
        simp
      · rw [if_neg hj, Option.some.injEq]
        refine ⟨fun hc => absurd hc.symm hj, ?_⟩
        rintro ⟨q, hq, hqs⟩
        have := (h.seats t j).mpr ⟨q, hq, hqs⟩
        rw [hs] at this
        cases this
    · rw [if_neg ht, h.seats t j]
      by_cases hj : j = i
      · subst hj
        rw [if_pos rfl, hr]
        simp [hnone, Ne.symm ht]
      · rw [if_neg hj]

/-! ## Giving back and going -/

/-- The record of a quiet step, as it was. -/
theorem Core.recAt_settle (hr : st.recAt i = some r) (bits : Owed) :
    (st.settle i bits).recAt i = some { r with owed := r.owed.clear bits } :=
  Records.get_settle hr bits

theorem quiet_settle_recAt (hr : st.recAt i = some r) (bits : Owed) : ∃ q,
    (st.settle i bits).recAt i = some q ∧ q.core = r.core :=
  (quiet_settle st i bits).fwd hr

theorem recAt_settle_ne (st : Core) (i : Nat) (bits : Owed) {j : Nat} (hj : j ≠ i) :
    (st.settle i bits).recAt j = st.recAt j := by
  show (st.records.settle i bits).get j = st.records.get j
  unfold Records.settle
  split
  next => rfl
  split
  next => rfl
  dsimp only
  split
  next => rw [Records.get_modify, if_neg hj]
  next =>
    show (st.records.modify i _).get j = _
    rw [Records.get_modify, if_neg hj]

/-- What giving a slot back comes to. -/
theorem giveBack_of_slot (hr : st.recAt i = some r) (hs : r.slot = some s) :
    st.giveBack i =
      (((st.settle i oweMatch).note (.down r.localId .giveBack)).modSlot s
        fun slot => { slot with holder := none }).modRec i fun q => { q with slot := none } := by
  unfold Core.giveBack
  rw [hr]
  dsimp only
  rw [hs]

/-- A slotted record gives its slot back: the slot hooks hear it go, the seen hook nothing. -/
theorem Inv.giveBack (h : Inv A x st) (hr : st.recAt i = some r) (hs : r.slot ≠ none)
    (hp : ((x i).getD r.status).2 ≠ .off) :
    Inv A (x.set i (((x i).getD r.status).1, .off)) (st.giveBack i) := by
  obtain ⟨s, hs⟩ := Option.ne_none_iff_exists'.mp hs
  obtain ⟨q, hq, hqc⟩ := quiet_settle_recAt hr oweMatch
  have hplace := core_place hqc
  have h1 := h.quiet (quiet_settle st i oweMatch)
  have h2 : Inv A (x.set i (((x i).getD r.status).1, .off))
      ((st.settle i oweMatch).note (.down r.localId .giveBack)) := by
    rw [← place_localId hplace]
    refine h1.hook hq rfl rfl ?_ ?_
    · show some _ = some _
      rw [place_status hplace]
    · rw [place_status hplace]
      show (if q.localId = q.localId then _ else _) = _
      rw [if_pos rfl]
      cases hph : ((x i).getD r.status).2 with
      | off => exact absurd hph hp
      | on => rfl
      | silent => rfl
  rw [giveBack_of_slot hr hs]
  exact h2.unbind (r := q) hq ((place_slot hplace).trans hs) (Override.set_self x i _)

/-- Its record holds no slot then, and is else as it was. -/
theorem recAt_giveBack (hr : st.recAt i = some r) : ∃ q, (st.giveBack i).recAt i = some q ∧
    q.slot = none ∧ q.core = ({ r with slot := none } : Rec).core := by
  cases hs : r.slot with
  | none =>
    refine ⟨r, ?_, hs, ?_⟩
    · unfold Core.giveBack
      rw [hr]
      dsimp only
      rw [hs]
      exact hr
    · rw [show ({ r with slot := none } : Rec) = r by rw [← hs]]
  | some s =>
    obtain ⟨q, hq, hqc⟩ := quiet_settle_recAt hr oweMatch
    refine ⟨{ q with slot := none }, ?_, rfl, ?_⟩
    · rw [giveBack_of_slot hr hs]
      exact Core.recAt_modRec_self hq _
    · have hp := core_place hqc
      unfold Rec.core Rec.place
      rw [show Records.idOf { q with slot := none } = Records.idOf r from congrArg Prod.fst hp]
      have h1 : q.state = r.state := place_state hp
      have h2 := core_want hqc
      have h3 := core_full hqc
      have h4 := core_metaVersion hqc
      have h5 := core_advVersion hqc
      dsimp only
      rw [h1, h2, h3, h4, h5]
      rfl

theorem recAt_giveBack_ne {j : Nat} (hj : j ≠ i) : (st.giveBack i).recAt j = st.recAt j := by
  unfold Core.giveBack
  split
  next => rfl
  next r hr =>
    split
    next => rfl
    next s hs =>
      dsimp only
      rw [Core.recAt_modRec_ne hj]
      exact recAt_settle_ne st i oweMatch hj

/-- A peer that goes leaves its place empty. -/
theorem recAt_peerGone (st : Core) (i j : Nat) :
    (st.peerGone i).recAt j = if j = i then none else st.recAt j := by
  unfold Core.peerGone
  split
  next hr =>
    split
    next hj => rw [hj, hr]
    next => rfl
  next r hr =>
    dsimp only
    have hrec : ∀ st' : Core, st'.records = st.records →
        (Core.note { st' with records := st'.records.remove i } (.removed r.localId)).recAt j =
          if j = i then none else st.recAt j := by
      intro st' hst'
      show (st'.records.remove i).get j = _
      rw [hst']
      rcases Records.get_remove st.records i j with ⟨h1, h2⟩ | ⟨h1, h2⟩
      · rw [h1, if_pos h2]
      · rw [h2, if_neg h1]
        rfl
    apply hrec
    unfold Core.goneHooks
    cases r.slot <;> dsimp only <;> split <;> split <;> rfl

/-- What `peer_gone` leaves in the trace of a record that is there. -/
def goneMarks (r : Rec) : List Mark :=
  (if r.state = .active then [Mark.seen r.localId r.addr false] else []) ++
    ((if r.slot.isSome then [Mark.down r.localId .gone] else []) ++ [.removed r.localId])

/-- What is heard of its going. -/
theorem trace_peerGone (hr : st.recAt i = some r) :
    (st.peerGone i).trace = st.trace ++ goneMarks r := by
  unfold Core.peerGone
  rw [hr]
  dsimp only
  unfold goneMarks Core.goneHooks
  cases hs : r.slot with
  | none =>
    by_cases ha : r.state = .active
    · rw [if_pos ha, if_pos ha]
      simp [Core.note]
    · rw [if_neg ha, if_neg ha]
      simp [Core.note]
  | some s =>
    by_cases ha : r.state = .active
    · rw [if_pos ha, if_pos ha]
      simp [Core.note, Core.modSlot]
    · rw [if_neg ha, if_neg ha]
      simp [Core.note, Core.modSlot]

/-- Its slot is free, every other is held as before. -/
theorem slotRec_peerGone (hr : st.recAt i = some r) (t : Nat) :
    (st.peerGone i).slotRec t = if r.slot = some t then none else st.slotRec t := by
  unfold Core.peerGone
  rw [hr]
  dsimp only
  have hslots : (st.goneHooks r).slots = st.slots := by
    unfold Core.goneHooks
    dsimp only
    split <;> split <;> rfl
  cases hs : r.slot with
  | none =>
    rw [if_neg (fun hc => by cases hc)]
    show ((st.goneHooks r).slots[t]?).bind Slot.holder = _
    rw [hslots]
    rfl
  | some s =>
    show ((st.goneHooks r).modSlot s _).slotRec t = _
    rw [Core.slotRec_modSlot]
    by_cases hts : t = s
    · rw [if_pos hts, if_pos (by rw [hts])]
      cases (st.goneHooks r).slots[t]? with
      | none => rfl
      | some slot => rfl
    · rw [if_neg hts, if_neg (fun hc => hts (Option.some.inj hc).symm)]
      show ((st.goneHooks r).slots[t]?).bind Slot.holder = _
      rw [hslots]
      rfl

theorem records_peerGone (hr : st.recAt i = some r) :
    (st.peerGone i).records = st.records.remove i := by
  unfold Core.peerGone
  rw [hr]
  dsimp only
  have hrec : (st.goneHooks r).records = st.records := by
    unfold Core.goneHooks
    dsimp only
    split <;> split <;> rfl
  cases hs : r.slot with
  | none =>
    show (st.goneHooks r).records.remove i = _
    rw [hrec]
  | some s =>
    show (st.goneHooks r).records.remove i = _
    rw [hrec]

/-- Hooks about others tell nothing of an id. -/
theorem heard_others {ms : List Mark} : ∀ {t : List Mark},
    (∀ m ∈ ms, m.hookId ≠ some id) → heard id (t ++ ms) = heard id t ∧ phase id (t ++ ms) = phase id t := by
  induction ms with
  | nil => intro t _; simp
  | cons m ms ih =>
    intro t h
    obtain ⟨h1, h2⟩ := ih (t := t ++ [m]) fun n hn => h n (List.mem_cons_of_mem m hn)
    rw [List.append_assoc, List.singleton_append] at h1 h2
    obtain ⟨h3, h4⟩ := next_other (h m List.mem_cons_self) (heard id t) (phase id t)
    rw [h1, h2, heard_append, phase_append]
    exact ⟨h3, h4⟩

/-- What a going may tell. -/
theorem mem_goneMarks (h : m ∈ goneMarks r) :
    m = .seen r.localId r.addr false ∨ m = .down r.localId .gone ∨ m = .removed r.localId := by
  unfold goneMarks at h
  rcases List.mem_append.mp h with h | h
  · split at h
    next => exact Or.inl (List.mem_singleton.mp h)
    next => cases h
  · rcases List.mem_append.mp h with h | h
    · split at h
      next => exact Or.inr (Or.inl (List.mem_singleton.mp h))
      next => cases h
    · exact Or.inr (Or.inr (List.mem_singleton.mp h))

/-- All of it is about who goes. -/
theorem goneMarks_hookId (h : m ∈ goneMarks r) (hid : m.hookId = some id) :
    id = r.localId := by
  rcases mem_goneMarks h with rfl | rfl | rfl
  · exact (Option.some.inj hid).symm
  · exact (Option.some.inj hid).symm
  · cases hid

theorem goneMarks_ends (h : m ∈ goneMarks r) (hend : m.ends id) :
    id = r.localId := by
  rcases mem_goneMarks h with rfl | rfl | rfl
  · cases hend
  · exact hend.symm
  · exact hend.symm

theorem given_goneMarks (t : List Mark) : given (t ++ goneMarks r) = given t := by
  unfold given
  rw [List.countP_append, Nat.add_eq_left, List.countP_eq_zero]
  intro m hm
  rcases mem_goneMarks hm with rfl | rfl | rfl <;> exact Bool.false_ne_true

/-- The last hooks of an id in step leave both automata where they start. -/
theorem heard_goneMarks {t : List Mark} (hh : heard r.localId t = some r.status.1)
    (hp : phase r.localId t = some r.status.2) :
    heard r.localId (t ++ goneMarks r) = some false ∧ phase r.localId (t ++ goneMarks r) = some .off := by
  have hr : ∀ u, heard r.localId (u ++ [Mark.removed r.localId]) = heard r.localId u ∧
      phase r.localId (u ++ [Mark.removed r.localId]) = phase r.localId u := fun u => by
    rw [heard_append, phase_append]
    exact ⟨rfl, rfl⟩
  have hseen : ∀ u, heard r.localId u = some true →
      heard r.localId (u ++ [Mark.seen r.localId r.addr false]) = some false := by
    intro u hu
    rw [heard_append, hu]
    show (if r.localId = r.localId then _ else _) = _
    rw [if_pos rfl]
    rfl
  have hseenp : ∀ u, phase r.localId (u ++ [Mark.seen r.localId r.addr false]) =
      phase r.localId u := fun u => phase_append _ _ _
  have hdown : ∀ u, heard r.localId (u ++ [Mark.down r.localId .gone]) = heard r.localId u := fun u =>
    heard_append _ _ _
  have hdownp : ∀ u p, phase r.localId u = some p → p ≠ .off →
      phase r.localId (u ++ [Mark.down r.localId .gone]) = some .off := by
    intro u p hu hne
    rw [phase_append, hu]
    show (if r.localId = r.localId then _ else _) = _
    rw [if_pos rfl]
    cases p with
    | off => exact absurd rfl hne
    | on => rfl
    | silent => rfl
  unfold Rec.status at hh hp
  unfold goneMarks
  by_cases ha : r.state = .active
  · rw [ha, if_pos rfl] at hp
    rw [ha] at hh
    rw [if_pos ha]
    cases hs : r.slot with
    | none =>
      rw [hs, if_pos rfl] at hp
      show heard _ (t ++ ([_] ++ ([] ++ [_]))) = _ ∧ phase _ (t ++ ([_] ++ ([] ++ [_]))) = _
      rw [List.nil_append, ← List.append_assoc, (hr _).1, (hr _).2, hseenp]
      exact ⟨hseen t hh, hp⟩
    | some s =>
      rw [hs, if_neg (fun hc => by cases hc)] at hp
      show heard _ (t ++ ([_] ++ ([_] ++ [_]))) = _ ∧ phase _ (t ++ ([_] ++ ([_] ++ [_]))) = _
      rw [← List.append_assoc, ← List.append_assoc, (hr _).1, (hr _).2, hdown]
      exact ⟨hseen t hh, hdownp _ .on ((hseenp t).trans hp) (fun hc => by cases hc)⟩
  · rw [if_neg ha] at hp
    rw [decide_eq_false ha] at hh
    rw [if_neg ha]
    cases hs : r.slot with
    | none =>
      rw [hs, if_pos rfl] at hp
      show heard _ (t ++ ([] ++ ([] ++ [_]))) = _ ∧ phase _ (t ++ ([] ++ ([] ++ [_]))) = _
      rw [List.nil_append, List.nil_append, (hr _).1, (hr _).2]
      exact ⟨hh, hp⟩
    | some s =>
      rw [hs, if_neg (fun hc => by cases hc)] at hp
      show heard _ (t ++ ([] ++ ([_] ++ [_]))) = _ ∧ phase _ (t ++ ([] ++ ([_] ++ [_]))) = _
      rw [List.nil_append, ← List.append_assoc, (hr _).1, (hr _).2, hdown]
      exact ⟨hh, hdownp _ .silent hp (fun hc => by cases hc)⟩

/-- Who goes had no end before. -/
theorem ended_goneMarks {t : List Mark} (h : Ended t) (halive : ∀ m ∈ t, ¬ m.ends r.localId) :
    Ended (t ++ goneMarks r) := by
  unfold Ended
  rw [List.pairwise_append]
  refine ⟨h, ?_, fun a ha m hm id hend hid => halive a ha (goneMarks_hookId hm hid ▸ hend)⟩
  unfold goneMarks
  rw [List.pairwise_append, List.pairwise_append]
  refine ⟨?_, ⟨?_, List.pairwise_singleton _ _, ?_⟩, ?_⟩
  · split
    next => exact List.pairwise_singleton _ _
    next => exact List.Pairwise.nil
  · split
    next => exact List.pairwise_singleton _ _
    next => exact List.Pairwise.nil
  · intro a _ m hm id _ hid
    rw [List.mem_singleton.mp hm] at hid
    cases hid
  · intro a ha m _ id hend
    split at ha
    next =>
      rw [List.mem_singleton.mp ha] at hend
      cases hend
    next => cases ha

theorem own_peerGone (st : Core) (i : Nat) : (st.peerGone i).own = st.own := by
  unfold Core.peerGone
  split
  next => rfl
  next r _ =>
    have hown : (st.goneHooks r).own = st.own := by
      unfold Core.goneHooks
      dsimp only
      split <;> split <;> rfl
    rw [← hown]
    cases r.slot <;> rfl

/-- What the hooks heard once a record in step goes. -/
theorem Told.gone (ht : Told x st) {st' : Core} {r : Rec} (hr : st.recAt i = some r)
    (hx : x i = none) (hget : ∀ j, st'.recAt j = if j = i then none else st.recAt j)
    (htrace : st'.trace = st.trace ++ goneMarks r)
    (hnext : st'.records.nextId = st.records.nextId) : Told x st' := by
  have hold : ∀ {j q}, st'.recAt j = some q → j ≠ i ∧ st.recAt j = some q := by
    intro j q hq
    rw [hget] at hq
    split at hq
    next => cases hq
    next hj => exact ⟨hj, hq⟩
  have hmem : ∀ {m : Mark}, m ∈ st'.trace → m ∈ st.trace ∨ m ∈ goneMarks r := fun hm => by
    rw [htrace] at hm
    exact List.mem_append.mp hm
  have hgiven : given st'.trace = given st.trace := by rw [htrace, given_goneMarks]
  have htie := ht.tie i r hr
  rw [hx] at htie
  have hother : ∀ id, id ≠ r.localId → heard id st'.trace = heard id st.trace ∧
      phase id st'.trace = phase id st.trace := by
    intro id hne
    rw [htrace]
    exact heard_others fun m hm hid => hne (goneMarks_hookId hm hid)
  refine ⟨by rw [hnext, hgiven]; exact ht.next, fun j q hq => hgiven ▸ ht.range j q (hold hq).2,
    fun j k q p hq hp => ht.ids j k q p (hold hq).2 (hold hp).2, fun j q hq => ?_,
    fun id hno => ?_, ?_, fun j q hq m hm hend => ?_, fun m hm id hend => ?_, fun id u hm => ?_⟩
  · obtain ⟨hj, hq⟩ := hold hq
    have hne : q.localId ≠ r.localId := fun hc => hj (ht.ids j i q r hq hr hc)
    rw [(hother _ hne).1, (hother _ hne).2]
    exact ht.tie j q hq
  · by_cases hid : id = r.localId
    · rw [hid, htrace]
      exact heard_goneMarks htie.1 htie.2
    · rw [(hother _ hid).1, (hother _ hid).2]
      refine ht.rest id fun j q hq hc => ?_
      have hj : j ≠ i := by
        rintro rfl
        cases hr.symm.trans hq
        exact hid hc.symm
      exact hno j q (by rw [hget, if_neg hj]; exact hq) hc
  · rw [htrace]
    exact ended_goneMarks ht.ended fun m hm => ht.alive i r hr m hm
  · obtain ⟨hj, hq⟩ := hold hq
    rcases hmem hm with hm | hm
    · exact ht.alive j q hq m hm hend
    · exact hj (ht.ids j i q r hq hr (goneMarks_ends hm hend))
  · rw [hgiven]
    rcases hmem hm with hm | hm
    · exact ht.past m hm id hend
    · rw [goneMarks_ends hm hend]
      exact ht.range i r hr
  · rcases hmem hm with hm | hm
    · rcases ht.born id u hm with hrem | ⟨j, q, hq, hid, hu⟩
      · exact Or.inl (by rw [htrace]; exact List.mem_append_left _ hrem)
      · by_cases hj : j = i
        · subst hj
          cases hr.symm.trans hq
          refine Or.inl ?_
          rw [htrace, ← hid]
          exact List.mem_append_right _ (by simp [goneMarks])
        · exact Or.inr ⟨j, q, by rw [hget, if_neg hj]; exact hq, hid, hu⟩
    · rcases mem_goneMarks hm with hc | hc | hc <;> cases hc

/-- A record in step goes. -/
theorem Inv.peerGone (h : Inv A x st) (hx : x i = none) : Inv A x (st.peerGone i) := by
  cases hr : st.recAt i with
  | none =>
    have : st.peerGone i = st := by
      unfold Core.peerGone
      rw [hr]
    rw [this]
    exact h
  | some r =>
    have htrace := trace_peerGone hr
    have hget := recAt_peerGone st i
    have hrecs := records_peerGone hr
    have hold : ∀ {j q}, (st.peerGone i).recAt j = some q → j ≠ i ∧ st.recAt j = some q := by
      intro j q hq
      rw [hget] at hq
      split at hq
      next => cases hq
      next hj => exact ⟨hj, hq⟩
    refine ⟨?_, fun s j => ?_, fun j q hq => ?_, fun m hm => ?_, fun hlt => ?_,
      (own_peerGone st i).trans h.own⟩
    · rw [hrecs]
      exact h.store.remove i
    · rw [slotRec_peerGone hr, hget]
      by_cases hs : r.slot = some s
      · rw [if_pos hs]
        refine ⟨fun hc => (by cases hc), ?_⟩
        rintro ⟨q, hq, hqs⟩
        split at hq
        next => cases hq
        next hj =>
          have h1 := (h.seats s j).mpr ⟨q, hq, hqs⟩
          have h2 := (h.seats s i).mpr ⟨r, hr, hs⟩
          rw [h1] at h2
          exact absurd (Option.some.inj h2) hj
      · rw [if_neg hs, h.seats s j]
        by_cases hj : j = i
        · subst hj
          rw [if_pos rfl, hr]
          simp [hs]
        · rw [if_neg hj]
    · obtain ⟨-, hq⟩ := hold hq
      exact (h.calm j q hq).core rfl fun m hm => by
        rw [htrace]
        exact List.mem_append_left _ hm
    · rw [htrace] at hm
      rcases List.mem_append.mp hm with hm | hm
      · exact h.fair m hm
      · rcases mem_goneMarks hm with rfl | rfl | rfl <;> trivial
    · rw [htrace, given_goneMarks] at hlt
      refine (h.told hlt).gone hr hx hget htrace ?_
      rw [hrecs]
      unfold Records.remove
      rw [show st.records.get i = some r from hr]
      exact (Records.settle_owes st.records i oweAll).nextId

/-! ## Coming -/

/-- What the hooks heard once a record comes with the next id. -/
theorem Told.added (ht : Told x st) {st' : Core} {uuid : Bytes}
    (hid : id = given st.trace + 1) (hfree : st.recAt i = none)
    (hget : ∀ j, st'.recAt j = if j = i then some { uuid := uuid, localId := id } else st.recAt j)
    (htrace : st'.trace = st.trace ++ [.added id uuid])
    (hnext : st'.records.nextId = (id + 1) % 2 ^ 32) : Told (x.set i (false, .off)) st' := by
  have hold : ∀ {j q}, st'.recAt j = some q →
      j = i ∧ q = { uuid := uuid, localId := id } ∨ j ≠ i ∧ st.recAt j = some q := by
    intro j q hq
    rw [hget] at hq
    split at hq
    next hj => exact Or.inl ⟨hj, (Option.some.inj hq).symm⟩
    next hj => exact Or.inr ⟨hj, hq⟩
  have hkept : ∀ {j q}, st.recAt j = some q → st'.recAt j = some q := by
    intro j q hq
    rw [hget, if_neg]
    · exact hq
    · rintro rfl
      cases hfree.symm.trans hq
  have hmem : ∀ {m : Mark}, m ∈ st'.trace → m ∈ st.trace ∨ m = .added id uuid := fun hm => by
    rw [htrace] at hm
    exact (List.mem_append.mp hm).imp_right List.mem_singleton.mp
  have hgiven : given st'.trace = id := by
    rw [htrace, hid]
    unfold given
    rw [List.countP_append]
    rfl
  -- the ids have not started over, so the next one is new
  have hfresh : ∀ {j q}, st.recAt j = some q → q.localId ≠ id := fun hq => by
    have := (ht.range _ _ hq).2
    omega
  have hsame : ∀ id, heard id st'.trace = heard id st.trace ∧ phase id st'.trace = phase id st.trace := by
    intro id
    rw [htrace, heard_append, phase_append]
    exact ⟨rfl, rfl⟩
  refine ⟨hgiven ▸ hnext, fun j q hq => ?_, fun j k q p hq hp hids => ?_, fun j q hq => ?_,
    fun id' hno => ?_, ?_, fun j q hq m hm hend => ?_, fun m hm id' hend => ?_, fun id' u hm => ?_⟩
  · rw [hgiven]
    rcases hold hq with ⟨-, rfl⟩ | ⟨-, hq⟩
    · exact ⟨by rw [hid]; exact Nat.succ_pos _, Nat.le_refl _⟩
    · have := ht.range j q hq
      omega
  · rcases hold hq with ⟨rfl, rfl⟩ | ⟨-, hq⟩ <;> rcases hold hp with ⟨rfl, rfl⟩ | ⟨-, hp⟩
    · rfl
    · exact absurd hids.symm (hfresh hp)
    · exact absurd hids (hfresh hq)
    · exact ht.ids j k q p hq hp hids
  · rw [(hsame _).1, (hsame _).2]
    rcases hold hq with ⟨rfl, rfl⟩ | ⟨hj, hq⟩
    · rw [Override.set_self]
      exact ht.rest _ fun k p hp => hfresh hp
    · rw [Override.set_ne x hj]
      exact ht.tie j q hq
  · rw [(hsame _).1, (hsame _).2]
    exact ht.rest id' fun j q hq => hno j q (hkept hq)
  · rw [htrace, ended_append]
    exact ⟨ht.ended, fun a _ id _ hc => (by cases hc)⟩
  · rcases hmem hm with hm | rfl
    · rcases hold hq with ⟨-, rfl⟩ | ⟨-, hq⟩
      · have hpast : id ≤ given st.trace := (ht.past m hm _ hend).2
        omega
      · exact ht.alive j q hq m hm hend
    · cases hend
  · rcases hmem hm with hm | rfl
    · have := ht.past m hm id' hend
      omega
    · cases hend
  · rcases hmem hm with hm | hm
    · rcases ht.born id' u hm with hrem | ⟨j, q, hq, hqid, hu⟩
      · exact Or.inl (by rw [htrace]; exact List.mem_append_left _ hrem)
      · exact Or.inr ⟨j, q, hkept hq, hqid, hu⟩
    · injection hm with h1 h2
      exact Or.inr ⟨i, _, (hget i).trans (if_pos rfl), h1.symm, h2.symm⟩

/-- A record that is added is one the hooks have not heard of yet. -/
theorem Inv.addRecord (h : Inv A x st) (env : Env) {uuid : Bytes}
    (hu : ∀ j q, st.recAt j = some q → q.uuid ≠ uuid) :
    ((st.addRecord env uuid).2 = none ∧ Inv A x (st.addRecord env uuid).1 ∧
        ∀ j, (st.addRecord env uuid).1.recAt j = st.recAt j) ∨
      ∃ i q, (st.addRecord env uuid).2 = some i ∧ (st.addRecord env uuid).1.recAt i = some q ∧
        q = { uuid := uuid, localId := q.localId } ∧ st.recAt i = none ∧
        Inv A (x.set i (false, .off)) (st.addRecord env uuid).1 := by
  unfold Core.addRecord
  obtain ⟨records, hrecords⟩ : ∃ records, records = (st.records.add env.mem uuid).1 := ⟨_, rfl⟩
  rcases h.store.add env.mem hu with ⟨h1, h2, h3, h4⟩ | ⟨i, h1, h2, h3, h4, h5⟩
  · have hpair : st.records.add env.mem uuid = (records, none) := by
      rw [hrecords, ← h1]
    rw [← hrecords] at h2 h3 h4
    rw [hpair]
    refine Or.inl ⟨rfl, h.quiet ⟨fun j => ?_, fun _ => h2, h3, fun _ => rfl,
      ⟨[], (List.append_nil _).symm, fun m hm => (by cases hm)⟩, rfl⟩, h4⟩
    exact congrArg (Option.map Rec.core) (h4 j)
  · have hpair : st.records.add env.mem uuid = (records, some i) := by
      rw [hrecords, ← h1]
    rw [← hrecords] at h3 h4 h5
    rw [hpair]
    refine Or.inr ⟨i, { uuid := uuid, localId := st.records.takenId }, rfl, (h5 i).trans (if_pos rfl),
      rfl, h2, ?_⟩
    obtain ⟨st', hst'⟩ : ∃ st', st' =
        Core.note { st with records := records } (.added st.records.takenId uuid) := ⟨_, rfl⟩
    show Inv A _ (Core.note { st with records := records } (.added st.records.takenId uuid))
    rw [← hst']
    -- the new record alone is written
    have hget : ∀ j, st'.recAt j =
        if j = i then some { uuid := uuid, localId := st.records.takenId } else st.recAt j := by
      intro j
      rw [hst']
      exact h5 j
    have htrace : st'.trace = st.trace ++ [.added st.records.takenId uuid] := by rw [hst']; rfl
    have hslots : ∀ s, st'.slotRec s = st.slotRec s := by rw [hst']; exact fun _ => rfl
    have hnone : st.recAt i = none := h2
    refine ⟨?_, fun s j => ?_, fun j q hq => ?_, fun m hm => ?_, fun hlt => ?_, by rw [hst']; exact h.own⟩
    · rw [hst']
      exact h3
    · rw [hslots, h.seats s j, hget]
      by_cases hj : j = i
      · subst hj
        rw [if_pos rfl, hnone]
        simp
      · rw [if_neg hj]
    · rw [hget] at hq
      split at hq
      next =>
        cases hq
        exact ⟨fun hc => absurd rfl hc, fun hc => (by cases hc), Nat.le_refl _, fun hc => absurd rfl hc⟩
      next =>
        exact (h.calm j q hq).core rfl fun m hm => by
          rw [htrace]
          exact List.mem_append_left _ hm
    · rw [htrace] at hm
      rcases List.mem_append.mp hm with hm | hm
      · exact h.fair m hm
      · rw [List.mem_singleton.mp hm]
        trivial
    -- one id more is given out, the one the record took
    · have hgiven : given st'.trace = given st.trace + 1 := by
        rw [htrace]
        unfold given
        rw [List.countP_append]
        rfl
      rw [hgiven] at hlt
      have ht := h.told (by omega)
      have htaken : st.records.takenId = given st.trace + 1 := by
        unfold Records.takenId
        rw [ht.next, Nat.mod_eq_of_lt hlt, if_neg (by omega)]
      exact ht.added htaken hnone hget htrace (by rw [hst']; exact h4)

end Rant.Discovery
