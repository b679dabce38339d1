import Rant.Discovery.Quiet
/-!
# The handlers keep the invariant

From taking a slot up to a whole event. A handler that hears a record leaves every other in
step; the record itself is behind until its `on_peer_up`, and `Heard` and `Owing` say how far.

`slotFind_spec` is the step behind every seat: a free slot, the oldest dropped peer's, or for a
match a live loan's. In each the record that looks for a slot keeps its own place, and nobody else
is disturbed but who loses the slot. `Heard.judge` puts the admit hook's word, the seat and the
store of the overlay together.
-/

namespace Rant.Discovery

open Rant.Transport (Bytes)

variable {A : Ground} {x : Override} {st : Core} {i : Nat} {r : Rec}

/-! ## Taking a slot -/

variable {j : Nat}

/-- What the search for the oldest finds is one of the candidates. -/
theorem oldest_spec {get : Nat → Option Rec} {p : Rec → Bool} {is : List Nat} {t : Nat}
    (h : oldest get p is = some (j, t)) : j ∈ is ∧ ∃ q, get j = some q ∧ p q = true := by
  -- the best so far is always one of those met
  have hbest : ∀ b ∈ oldest get p is, b.1 ∈ is ∧ ∃ q, get b.1 = some q ∧ p q = true := by
    unfold oldest
    refine List.foldlRecOn (motive := fun best : Option (Nat × Nat) =>
      ∀ b ∈ best, b.1 ∈ is ∧ ∃ q, get b.1 = some q ∧ p q = true) is _ ?_ ?_
    · intro b hb
      cases hb
    intro best hmet i hi b hb
    cases hq : get i with
    | none =>
      rw [hq] at hb
      exact hmet b hb
    | some q =>
      rw [hq] at hb
      dsimp only at hb
      split at hb
      next hp =>
        cases hb
        rw [Bool.and_eq_true] at hp
        exact ⟨hi, q, hq, hp.1⟩
      next => exact hmet b hb
  exact hbest (j, t) h

/-- A holder listed holds a slot. -/
theorem slotRec_of_mem (h : j ∈ st.slots.filterMap Slot.holder) : ∃ s, st.slotRec s = some j := by
  obtain ⟨slot, hslot, hj⟩ := List.mem_filterMap.mp h
  obtain ⟨s, hs, hget⟩ := List.getElem_of_mem hslot
  refine ⟨s, ?_⟩
  unfold Core.slotRec
  rw [List.getElem?_eq_getElem hs, hget]
  exact hj

theorem slotRec_lt {s : Nat} (h : st.slotRec s = some j) : s < st.slots.length := by
  by_contra hge
  unfold Core.slotRec at h
  rw [List.getElem?_eq_none (Nat.le_of_not_lt hge)] at h
  cases h

theorem length_slots_peerGone (st : Core) (j : Nat) : (st.peerGone j).slots.length = st.slots.length := by
  unfold Core.peerGone
  split
  next => rfl
  next q _ =>
    have hslots : (st.goneHooks q).slots = st.slots := by
      unfold Core.goneHooks
      dsimp only
      split <;> split <;> rfl
    dsimp only
    cases q.slot with
    | none =>
      show (st.goneHooks q).slots.length = _
      rw [hslots]
    | some s =>
      show ((st.goneHooks q).slots.modify s _).length = _
      rw [List.length_modify, hslots]

theorem length_slots_giveBack (st : Core) (j : Nat) : (st.giveBack j).slots.length = st.slots.length := by
  unfold Core.giveBack
  split
  next => rfl
  split
  next => rfl
  next => exact List.length_modify ..

theorem slotRec_giveBack (hr : st.recAt i = some r) {s : Nat} (hs : r.slot = some s) :
    (st.giveBack i).slotRec s = none := by
  rw [giveBack_of_slot hr hs]
  show (Core.modSlot _ s _).slotRec s = none
  rw [Core.slotRec_modSlot, if_pos rfl]
  cases ((st.settle i oweMatch).note (.down r.localId .giveBack)).slots[s]? with
  | none => rfl
  | some slot => rfl

theorem trace_peerGone_sub {m : Mark} (h : m ∈ st.trace) : m ∈ (st.peerGone j).trace := by
  cases hr : st.recAt j with
  | none =>
    unfold Core.peerGone
    rw [hr]
    exact h
  | some q =>
    rw [trace_peerGone hr]
    exact List.mem_append_left _ h

theorem trace_giveBack_sub {m : Mark} (h : m ∈ st.trace) : m ∈ (st.giveBack j).trace := by
  unfold Core.giveBack
  split
  next => exact h
  split
  next => exact h
  next => exact List.mem_append_left _ h

/-- A live loan that goes back wants a loan again. -/
theorem Inv.loanBack (h : Inv A x st) (hxj : x j = none) {q : Rec} (hq : st.recAt j = some q) {s : Nat}
    (hqs : q.slot = some s) (hqa : q.state = .active) :
    Inv A x ((st.giveBack j).modRec j fun x => { x with want := .loan }) := by
  have hstatus : ((x j).getD q.status) = (true, .on) := by
    rw [hxj]
    show q.status = _
    unfold Rec.status
    rw [hqs, hqa]
    rfl
  have hback := h.giveBack hq (by rw [hqs]; exact Option.some_ne_none s)
    (by rw [hstatus]; exact fun hc => (by cases hc))
  rw [hstatus] at hback
  obtain ⟨p, hp, hpn, hpc⟩ := recAt_giveBack hq
  -- who holds a slot is not full
  have hpfull : p.full = false := by
    have hc := h.calm j q hq
    cases hf : q.full with
    | false => exact (core_full hpc).trans hf
    | true =>
      have := (hc.full hf).1
      rw [hqs] at this
      cases this
  have hcalm := hback.calm j p hp
  have hwant : Inv A (x.set j (true, .off)) ((st.giveBack j).modRec j fun x => { x with want := .loan }) := by
    refine hback.modRec hp rfl ⟨fun hc => absurd hpn hc, fun hf => ?_, hcalm.version, hcalm.judged⟩
    have hf' : p.full = true := hf
    rw [hpfull] at hf'
    cases hf'
  have hpstate : p.state = .active := (place_state (core_place hpc)).trans hqa
  refine hwant.settle (Core.recAt_modRec_self hp _) ?_ hxj
  unfold Rec.status
  rw [show ({ p with want := .loan } : Rec).slot = none from hpn,
    show ({ p with want := .loan } : Rec).state = .active from hpstate]
  rfl

/-- A live record without a slot that looks for one disturbs no other but the one whose slot
it takes. -/
theorem slotFind_spec (h : Inv A x st) (hx : ∀ j, j ≠ i → x j = none) (hr : st.recAt i = some r)
    (hnone : r.slot = none) (hactive : r.state = .active) (verdict : Admit) :
    Inv A x (st.slotFind verdict).1 ∧ (st.slotFind verdict).1.recAt i = some r ∧
      (∀ m ∈ st.trace, m ∈ (st.slotFind verdict).1.trace) ∧
      ∀ s, (st.slotFind verdict).2 = some s →
        (st.slotFind verdict).1.slotRec s = none ∧ s < (st.slotFind verdict).1.slots.length ∧
          (Mark.taken s (st.heldBy s) verdict).Fair := by
  unfold Core.slotFind
  split
  next s hs =>
    -- a free slot
    obtain ⟨hlt, hfree, -⟩ := List.findIdx?_eq_some_iff_getElem.mp hs
    have hsr : st.slotRec s = none := by
      unfold Core.slotRec
      rw [List.getElem?_eq_getElem hlt]
      exact of_decide_eq_true hfree
    refine ⟨h, hr, fun m hm => hm, fun t ht => ?_⟩
    cases ht
    refine ⟨hsr, hlt, Or.inl ?_⟩
    unfold Core.heldBy
    rw [hsr]
  next =>
    split
    next victim t hv =>
      -- the oldest DROPPED peer's
      obtain ⟨hmem, q, hq, hdrop⟩ := oldest_spec hv
      have hqd : q.state = .dropped := of_decide_eq_true hdrop
      obtain ⟨s, hs⟩ := slotRec_of_mem hmem
      obtain ⟨q', hq', hqs⟩ := (h.seats s victim).mp hs
      rw [hq] at hq'
      cases hq'
      have hne : victim ≠ i := by
        rintro rfl
        rw [hr] at hq
        cases hq
        rw [hactive] at hqd
        cases hqd
      have hgone := h.peerGone (hx victim hne)
      refine ⟨hgone.quiet (Quiet.of rfl rfl rfl rfl), ?_, fun m hm => trace_peerGone_sub hm, fun t ht => ?_⟩
      · show (st.peerGone victim).recAt i = some r
        rw [recAt_peerGone, if_neg (Ne.symm hne)]
        exact hr
      · rw [hq] at ht
        have hst : q.slot = some t := ht
        rw [hqs] at hst
        cases hst
        refine ⟨?_, ?_, Or.inr (Or.inl ⟨(st.slots[s]?).any Slot.loan, ?_⟩)⟩
        · show (st.peerGone victim).slotRec s = none
          rw [slotRec_peerGone hq, if_pos hqs]
        · show s < (st.peerGone victim).slots.length
          rw [length_slots_peerGone]
          exact slotRec_lt hs
        · unfold Core.heldBy
          rw [hs]
          show (st.recAt victim).map _ = _
          rw [hq, ← hqd]
          rfl
    next =>
      split
      next s hs =>
        obtain ⟨hlt, hloan, -⟩ := List.findIdx?_eq_some_iff_getElem.mp hs
        split
        next => exact ⟨h, hr, fun m hm => hm, fun t ht => (by cases ht)⟩
        next hyes =>
          rw [Decidable.not_not] at hyes
          split
          next victim hvict =>
            -- a live loan's, for a match
            obtain ⟨q, hq, hqs⟩ := (h.seats s victim).mp hvict
            have hslot : st.slots[s]? = some st.slots[s] := List.getElem?_eq_getElem hlt
            have hholder : st.slots[s].holder = some victim := by
              unfold Core.slotRec at hvict
              rw [hslot] at hvict
              exact hvict
            unfold Core.liveLoan at hloan
            rw [hholder, Bool.and_eq_true] at hloan
            have hqa : q.state = .active := by
              have hlive := hloan.2
              rw [show (some victim).bind st.recAt = some q from hq] at hlive
              have hnd : q.state ≠ .dropped := of_decide_eq_true hlive
              cases hst : q.state with
              | active => rfl
              | dropped => exact absurd hst hnd
            have hne : victim ≠ i := by
              rintro rfl
              rw [hr] at hq
              cases hq
              rw [hnone] at hqs
              cases hqs
            refine ⟨h.loanBack (hx victim hne) hq hqs hqa, ?_, fun m hm => trace_giveBack_sub hm,
              fun t ht => ?_⟩
            · rw [Core.recAt_modRec_ne (Ne.symm hne), recAt_giveBack_ne (Ne.symm hne)]
              exact hr
            · cases ht
              refine ⟨slotRec_giveBack hq hqs, ?_, Or.inr (Or.inr ⟨?_, hyes⟩)⟩
              · show s < (st.giveBack victim).slots.length
                rw [length_slots_giveBack]
                exact hlt
              · unfold Core.heldBy
                rw [hvict]
                show (st.recAt victim).map _ = _
                rw [hq, hslot, ← hqa]
                exact congrArg (fun b => some (q.state, b)) hloan.1
          next => exact ⟨h, hr, fun m hm => hm, fun t ht => (by cases ht)⟩
      next => exact ⟨h, hr, fun m hm => hm, fun t ht => (by cases ht)⟩

/-- A slot taken is free, and the record it is for is as it was. -/
theorem slotTake_spec (h : Inv A x st) (hx : ∀ j, j ≠ i → x j = none) (hr : st.recAt i = some r)
    (hnone : r.slot = none) (hactive : r.state = .active) (verdict : Admit) :
    Inv A x (st.slotTake verdict).1 ∧ (st.slotTake verdict).1.recAt i = some r ∧
      (∀ m ∈ st.trace, m ∈ (st.slotTake verdict).1.trace) ∧
      ∀ s, (st.slotTake verdict).2 = some s →
        (st.slotTake verdict).1.slotRec s = none ∧ s < (st.slotTake verdict).1.slots.length := by
  obtain ⟨h1, h2, h3, h4⟩ := slotFind_spec h hx hr hnone hactive verdict
  unfold Core.slotTake
  split
  next st' s heq =>
    rw [heq] at h1 h2 h3 h4
    obtain ⟨h5, h6, h7⟩ := h4 s rfl
    refine ⟨h1.taken h7, h2, fun m hm => List.mem_append_left _ (h3 m hm), fun t ht => ?_⟩
    cases ht
    exact ⟨h5, h6⟩
  next st' heq =>
    rw [heq] at h1 h2 h3
    exact ⟨h1, h2, h3, fun t ht => (by cases ht)⟩

/-- A seat: the record holds the slot, wants nothing and holds no blob yet. -/
theorem seat_spec (h : Inv A x st) (hx : ∀ j, j ≠ i → x j = none) {v : Bool × Phase}
    (hv : x i = some v) (hr : st.recAt i = some r) (hnone : r.slot = none)
    (hactive : r.state = .active) (hfull : r.full = false) (verdict : Admit) :
    Inv A x (st.seat i verdict).1 ∧ (∀ m ∈ st.trace, m ∈ (st.seat i verdict).1.trace) ∧
      ((st.seat i verdict).2 = none ∧ (st.seat i verdict).1.recAt i = some r ∨
        ∃ s, (st.seat i verdict).2 = some s ∧ (st.seat i verdict).1.recAt i =
          some { r with slot := some s, metaVersion := 0, want := .no, refetch := false }) := by
  obtain ⟨h1, h2, h3, h4⟩ := slotTake_spec h hx hr hnone hactive verdict
  unfold Core.seat
  split
  next st' heq =>
    rw [heq] at h1 h2 h3
    exact ⟨h1, h3, Or.inl ⟨rfl, h2⟩⟩
  next st' s heq =>
    rw [heq] at h1 h2 h3 h4
    obtain ⟨h5, h6⟩ := h4 s rfl
    have hbind := h1.slotBind h2 hnone hfull h5 h6 hv
    have hloan : Quiet (st'.slotBind s i) ((st'.slotBind s i).modSlot s fun slot =>
        { slot with loan := verdict = .loan }) := quiet_modSlot fun _ => rfl
    refine ⟨(hbind.quiet hloan).quiet (Quiet.of rfl rfl rfl rfl), h3, Or.inr ⟨s, rfl, ?_⟩⟩
    show (st'.slotBind s i).recAt i = _
    unfold Core.slotBind
    have hr' : (st'.modSlot s fun slot => { blobCap := slot.blobCap, holder := some i }).recAt i =
        some r := h2
    exact Core.recAt_modRec_self hr' _

/-! ## The record that is heard -/

/-- The record at `i` is live and heard, and the seen hook knows as `seen` says. It holds a slot
only while the slot hooks know of it, as live unless a peer up is owed. -/
def Heard (A : Ground) (i : Nat) (seen owed : Bool) (r : Rec) (st : Core) : Prop :=
  st.recAt i = some r ∧ r.state = .active ∧ ∃ p, Inv A (only i (seen, p)) st ∧
    (r.slot = none → p = .off) ∧ (r.slot ≠ none → p ≠ .off ∧ (p = .on ∨ owed = true))

/-- The same, but that the slot hooks need not know of a slot a peer up is owed for. -/
def Owing (A : Ground) (i : Nat) (owed : Bool) (st : Core) : Prop :=
  ∃ r p, st.recAt i = some r ∧ r.state = .active ∧ Inv A (only i (true, p)) st ∧
    (r.slot = none → p = .off) ∧ (r.slot ≠ none → p = .on ∨ owed = true)

variable {owed : Bool}

theorem Heard.owing (h : Heard A i true owed r st) (up : Bool) :
    Owing A i (owed || up) st := by
  obtain ⟨hr, ha, p, hI, hoff, hon⟩ := h
  refine ⟨r, p, hr, ha, hI, hoff, fun hs => (hon hs).2.imp id fun ho => ?_⟩
  rw [ho]
  rfl

variable {seen : Bool}

/-- A quiet step keeps the record being heard. -/
theorem Heard.quiet {st' : Core} (h : Heard A i seen owed r st) (g : Quiet st st') :
    ∃ r', r'.core = r.core ∧ Heard A i seen owed r' st' := by
  obtain ⟨hr, ha, p, hI, hoff, hon⟩ := h
  obtain ⟨r', hr', hc⟩ := g.fwd hr
  have hp := core_place hc
  refine ⟨r', hc, hr', (place_state hp).trans ha, p, hI.quiet g, ?_, ?_⟩
  · rw [place_slot hp]
    exact hoff
  · rw [place_slot hp]
    exact hon

theorem Owing.quiet {st' : Core} (h : Owing A i owed st) (g : Quiet st st') :
    Owing A i owed st' := by
  obtain ⟨r, p, hr, ha, hI, hoff, hon⟩ := h
  obtain ⟨r', hr', hc⟩ := g.fwd hr
  have hp := core_place hc
  refine ⟨r', p, hr', (place_state hp).trans ha, hI.quiet g, ?_, ?_⟩
  · rw [place_slot hp]
    exact hoff
  · rw [place_slot hp]
    exact hon

/-- So does a write of its own notes that leaves it calm. -/
theorem Heard.modRec (h : Heard A i seen owed r st) {f : Rec → Rec}
    (hp : (f r).place = r.place) (hc : (f r).Calm A st.trace) :
    Heard A i seen owed (f r) (st.modRec i f) := by
  obtain ⟨hr, ha, p, hI, hoff, hon⟩ := h
  refine ⟨Core.recAt_modRec_self hr f, (place_state hp).trans ha, p, hI.modRec hr hp hc, ?_, ?_⟩
  · rw [place_slot hp]
    exact hoff
  · rw [place_slot hp]
    exact hon

theorem Heard.calm (h : Heard A i seen owed r st) : r.Calm A st.trace :=
  h.2.2.elim fun _ hI => hI.1.calm i r h.1

/-- A record heard that gives its slot back has none, and the slot hooks know. -/
theorem Heard.giveBack (h : Heard A i seen owed r st) :
    ∃ r', r'.core = ({ r with slot := none } : Rec).core ∧ Heard A i seen owed r' (st.giveBack i) := by
  obtain ⟨hr, ha, p, hI, hoff, hon⟩ := h
  obtain ⟨q, hq, hqn, hqc⟩ := recAt_giveBack hr
  refine ⟨q, hqc, hq, (place_state (core_place hqc)).trans ha, .off, ?_, fun _ => rfl,
    fun hc => absurd hqn hc⟩
  by_cases hs : r.slot = none
  · have hsame : st.giveBack i = st := by
      unfold Core.giveBack
      rw [hr]
      dsimp only
      rw [hs]
    rw [hsame, ← hoff hs]
    exact hI
  · have hback := hI.giveBack hr hs (by
      show ((only i (seen, p) i).getD r.status).2 ≠ .off
      unfold only
      rw [if_pos rfl]
      exact (hon hs).1)
    refine hback.agree fun j q _ => ?_
    by_cases hj : j = i
    · subst hj
      rw [Override.set_self]
      unfold only
      rw [if_pos rfl, if_pos rfl]
      rfl
    · rw [Override.set_ne _ hj]
      unfold only
      rw [if_neg hj, if_neg hj]

theorem only_ne (h : j ≠ i) (v : Bool × Phase) : only i v j = none := if_neg h

theorem only_self (v : Bool × Phase) : only i v i = some v := if_pos rfl

/-- What a match that holds its slot leaves. -/
theorem kept_owing {p : Phase} (hI : Inv A (only i (true, p)) st) (hr : st.recAt i = some r)
    (ha : r.state = .active) {s : Nat} (hs : r.slot = some s) {version : Nat}
    (hv : version ≤ r.advVersion) (hj : Mark.judged r.localId r.uuid version ∈ st.trace) (verdict : Admit)
    (flags : Nat) (fresh owed : Bool) :
    Owing A i (owed || true) (st.kept i s verdict version flags fresh) := by
  have hc := hI.calm i r hr
  have h1 : Inv A (only i (true, p)) (st.modRec i fun x => { x with metaVersion := version }) :=
    hI.modRec hr rfl ⟨hc.want, hc.full, hv, fun _ => Or.inl ⟨version, hj⟩⟩
  have ho : Owing A i (owed || true) (st.modRec i fun x => { x with metaVersion := version }) :=
    ⟨{ r with metaVersion := version }, p, Core.recAt_modRec_self hr _, ha, h1,
      fun hn => (by rw [show ({ r with metaVersion := version } : Rec).slot = r.slot from rfl, hs] at hn
                    cases hn),
      fun _ => Or.inr (by cases owed <;> rfl)⟩
  obtain ⟨st', hst'⟩ : ∃ st', st' = if verdict = .yes then
      (st.modRec i fun x => { x with metaVersion := version }).modSlot s fun slot =>
        { slot with loan := false }
      else st.modRec i fun x => { x with metaVersion := version } := ⟨_, rfl⟩
  have h2 : Owing A i (owed || true) st' := by
    rw [hst']
    split
    next => exact ho.quiet (quiet_modSlot fun _ => rfl)
    next => exact ho
  have hkept : st.kept i s verdict version flags fresh =
      if verdict = .yes && (fresh || st'.cfg.observer) && !hasFlag flags (flagOne ||| flagAll) then
        st'.ask i oweMatch st'.now
      else st' := by
    rw [hst']
    rfl
  rw [hkept]
  split
  next => exact h2.quiet (quiet_ask _ _ _ _)
  next => exact h2

/-- A record that wants a slot and finds none. -/
theorem Heard.refuse (h : Heard A i true owed r st) (hs : r.slot = none)
    (hf : r.full = false) : ∃ r', r'.slot = none ∧ Heard A i true owed r' (st.refuse i) := by
  have hc := h.calm
  have hr := h.1
  have h1 : Heard A i true owed { r with want := .yes } (st.modRec i fun x => { x with want := .yes }) := by
    refine h.modRec rfl ⟨fun hn => absurd hs hn, fun hfull => ?_, hc.version, hc.judged⟩
    have hfull' : r.full = true := hfull
    rw [hf] at hfull'
    cases hfull'
  unfold Core.refuse
  rw [hr]
  dsimp only
  have h2 : Quiet (st.modRec i fun x => { x with want := .yes })
      { st.modRec i fun x => { x with want := .yes } with
        seatMisses := (st.seatMisses + 1) % 2 ^ 32 } := Quiet.of rfl rfl rfl rfl
  have h3 := h2.trans (minor_troubleNote _ .peerRefused r.addr st.slots.length r.localId).quiet
  obtain ⟨q, hq, hqc⟩ := h3.fwd h1.1
  have h4 := h3.trans (quiet_note (says_rec hq (m := .error .peerRefused r.localId r.addr 0) rfl (by
    rw [place_localId (core_place hqc)]
    rfl)))
  obtain ⟨r', hr', hh⟩ := h1.quiet h4
  exact ⟨r', (place_slot (core_place hr')).trans hs, hh⟩

/-! ## Judging -/

/-- A record judged and let in takes a slot, is refused one or is left to a loan. -/
theorem Heard.judgeSeat (h : Heard A i true owed r st) (hs : r.slot = none)
    (hf : r.full = false) {version : Nat} (hv : version ≤ r.advVersion)
    (hj : Mark.judged r.localId r.uuid version ∈ st.trace) (env : Env) (blob : Bytes) (v : Admit) (flags : Nat) :
    Owing A i (owed || (st.judgeSeat env i blob v version flags).2)
      (st.judgeSeat env i blob v version flags).1 := by
  obtain ⟨hr, ha, p, hI, hoff, -⟩ := h
  have hp := hoff hs
  subst hp
  obtain ⟨h1, h2, h3⟩ := seat_spec hI (fun j hne => only_ne hne _) (only_self _) hr hs ha hf v
  unfold Core.judgeSeat
  split
  next st' heq =>
    rw [heq] at h1 h2 h3
    have hr' : st'.recAt i = some r := by
      rcases h3 with ⟨-, hr'⟩ | ⟨s, hc, -⟩
      · exact hr'
      · cases hc
    have hh : Heard A i true owed r st' :=
      ⟨hr', ha, .off, h1, fun _ => rfl, fun hc => absurd hs hc⟩
    have hc := hh.calm
    have hm : Heard A i true owed { r with metaVersion := version }
        (st'.modRec i fun x => { x with metaVersion := version }) :=
      hh.modRec rfl ⟨hc.want, hc.full, hv, fun _ => Or.inl ⟨version, h2 _ hj⟩⟩
    dsimp only
    split
    next =>
      obtain ⟨r', -, hh'⟩ := hm.refuse hs hf
      exact hh'.owing false
    have hl : Heard A i true owed { r with metaVersion := version, want := .loan }
        ((st'.modRec i fun x => { x with metaVersion := version }).modRec i fun x =>
          { x with want := .loan }) := by
      refine hm.modRec rfl ⟨fun hn => absurd hs hn, fun hfull => ?_, hv, hm.calm.judged⟩
      have hfull' : r.full = true := hfull
      rw [hf] at hfull'
      cases hfull'
    exact (hl.owing false).quiet (Quiet.of rfl rfl rfl rfl)
  next st' s heq =>
    rw [heq] at h1 h2 h3
    have hr' : st'.recAt i =
        some { r with slot := some s, metaVersion := 0, want := .no, refetch := false } := by
      rcases h3 with ⟨hc, -⟩ | ⟨s', hs', hr'⟩
      · cases hc
      · cases hs'
        exact hr'
    have hq := (minor_slotStore st' env s blob).quiet
    split
    next st'' hstore =>
      rw [hstore] at hq
      obtain ⟨q, hq', hqc⟩ := hq.fwd hr'
      have hqs : q.slot = some s := place_slot (core_place hqc)
      have hub := (h1.quiet hq).unbind hq' hqs (only_self (true, .off))
      refine ⟨{ q with slot := none }, .off, ?_, (place_state (core_place hqc)).trans ha,
        hub.quiet (Quiet.of rfl rfl rfl rfl), fun _ => rfl, fun hc => absurd rfl hc⟩
      exact Core.recAt_modRec_self hq' _
    next st'' hstore =>
      rw [hstore] at hq
      obtain ⟨q, hq', hqc⟩ := hq.fwd hr'
      have hqp := core_place hqc
      exact kept_owing (h1.quiet hq) hq' ((place_state hqp).trans ha) (place_slot hqp)
        (by rw [core_advVersion hqc]; exact hv)
        (by rw [place_uuid hqp, place_localId hqp]; exact hq.toSame.mem_trace (h2 _ hj)) v flags true owed

/-- The admit hook's word is kept, and the record seated or turned away by it. -/
theorem Heard.judge (h : Heard A i true owed r st) {version : Nat}
    (hv : version ≤ r.advVersion) (env : Env) (blob : Bytes) (flags : Nat) :
    Owing A i (owed || (st.judge env i blob version flags).2) (st.judge env i blob version flags).1 := by
  unfold Core.judge
  rw [h.1]
  dsimp only
  split
  next => exact h.owing false
  have hq1 : Quiet st ((st.refetchDone i).modRec i fun x => { x with tooBig := false }) :=
    (minor_refetchDone st i).quiet.trans (quiet_modRec fun _ _ => rfl)
  obtain ⟨st₁, hst₁⟩ : ∃ st₁, st₁ =
    (st.refetchDone i).modRec i fun x => { x with tooBig := false } := ⟨_, rfl⟩
  rw [← hst₁] at hq1 ⊢
  obtain ⟨r₁, hc₁, h₁⟩ := h.quiet hq1
  obtain ⟨hq2, hj⟩ := quiet_verdict h₁.1 env blob version
  obtain ⟨⟨st₂, v⟩, hst₂⟩ : ∃ o, o = st₁.verdict env i blob version := ⟨_, rfl⟩
  rw [← hst₂] at hq2 hj ⊢
  obtain ⟨r₂, hc₂, h₂⟩ := h₁.quiet hq2
  have hc := hc₂.trans hc₁
  have hp := core_place hc
  have hv₂ : version ≤ r₂.advVersion := by rw [core_advVersion hc]; exact hv
  have hj₂ : Mark.judged r₂.localId r₂.uuid version ∈ st₂.trace := by
    rw [place_uuid (core_place hc₂), place_localId (core_place hc₂)]
    exact hj
  -- judged at this version, and nothing wanted
  have hno : Heard A i true owed { r₂ with metaVersion := version, want := .no }
      (st₂.modRec i fun x => { x with metaVersion := version, want := .no }) :=
    h₂.modRec rfl ⟨fun _ => rfl, fun hf => ⟨(h₂.calm.full hf).1, rfl⟩, hv₂,
      fun _ => Or.inl ⟨version, hj₂⟩⟩
  dsimp only
  split
  next =>
    split
    next =>
      obtain ⟨r', -, hh⟩ := hno.giveBack
      exact (hh.owing false).quiet (Quiet.of rfl rfl rfl rfl)
    next => exact hno.owing false
  next =>
    split
    next hs =>
      have hs₂ : r₂.slot = none := (place_slot hp).trans hs
      split
      next => exact hno.owing false
      next hf =>
        have hf₂ : r₂.full = false := by
          rw [core_full hc]
          exact Bool.not_eq_true _ ▸ hf
        exact h₂.judgeSeat hs₂ hf₂ hv₂ hj₂ env blob v flags
    next s hs =>
      have hs₂ : r₂.slot = some s := (place_slot hp).trans hs
      have hq3 := (minor_slotStore st₂ env s blob).quiet
      split
      next st₃ hstore =>
        rw [hstore] at hq3
        obtain ⟨r₃, -, h₃⟩ := h₂.quiet hq3
        exact h₃.owing false
      next st₃ hstore =>
        rw [hstore] at hq3
        obtain ⟨r₃, hc₃, hr₃, ha₃, p, hI₃, -, -⟩ := h₂.quiet hq3
        exact kept_owing hI₃ hr₃ ha₃ ((place_slot (core_place hc₃)).trans hs₂)
          (by rw [core_advVersion hc₃]; exact hv₂)
          (by rw [place_uuid (core_place hc₃), place_localId (core_place hc₃)]; exact hq3.toSame.mem_trace hj₂) v flags _ owed

/-- A slotted record judged again keeps in step. -/
theorem Inv.rejudgeAt (h : Inv A settled st) (env : Env) (i : Nat) :
    Inv A settled (st.rejudgeAt env i).1 := by
  unfold Core.rejudgeAt
  split
  next => exact h
  next r hr =>
    split
    next => exact h
    next s hs =>
      obtain ⟨hq, -⟩ := quiet_verdict hr env (((st.slots[s]?).map Slot.blob).getD []) r.metaVersion
      have hI := h.quiet hq
      split
      next st' heq =>
        rw [heq] at hq hI
        obtain ⟨q, hq', hqc⟩ := hq.fwd hr
        have hqs : q.slot = some s := (place_slot (core_place hqc)).trans hs
        have hback := hI.giveBack hq' (by rw [hqs]; exact Option.some_ne_none s) (by
          show q.status.2 ≠ .off
          unfold Rec.status
          rw [hqs, if_neg (fun hc => by cases hc)]
          split <;> exact fun hc => by cases hc)
        obtain ⟨q', hq'', hqn, hqc'⟩ := recAt_giveBack hq'
        refine (hback.settle hq'' ?_ rfl).quiet (Quiet.of rfl rfl rfl rfl)
        have hst : q'.state = q.state := (place_state (core_place hqc')).trans rfl
        show (q.status.1, Phase.off) = q'.status
        unfold Rec.status
        rw [hqn, if_pos rfl, hst]
      next st' v _ heq =>
        have hst' : st' = (st.verdict env i (((st.slots[s]?).map Slot.blob).getD []) r.metaVersion).1 := by
          rw [heq]
        rw [← hst'] at hI
        split
        next =>
          have hm : Quiet st' (st'.modSlot s fun slot => { slot with loan := false }) :=
            quiet_modSlot fun _ => rfl
          exact (hI.quiet hm).quiet (quiet_ask _ i oweMatch _)
        next => exact hI

end Rant.Discovery
