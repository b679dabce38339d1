import Rant.Discovery.Walk
/-!
# Every event keeps the invariant

The datagram from the record it is of to its last line, then the sweep and the local calls.
`Inv.step` is the step lemma of the core; `Inv.runs` carries it over any list of events.

Each part of a datagram starts from `Heard`, the record in hand with its hooks behind, and ends in
`Owing` or `Heard` again, until `Owing.hearUp` tells the hook and every record is in step. A
stranger's way is told by `Met`: a record is made for it, or none is and nothing changed that
matters. The sweep and the replay are folds, whose steps keep the invariant one record at a time.
-/

namespace Rant.Discovery

open Rant.Lib
open Rant.Transport (Bytes)

variable {A : Ground} {x : Override} {st : Core} {i : Nat} {r : Rec}

/-! ## A FULL datagram -/

/-- One hook tells that a slot is given back. -/
theorem trace_giveBack (hr : st.recAt i = some r) {s : Nat} (hs : r.slot = some s) :
    (st.giveBack i).trace = st.trace ++ [.down r.localId .giveBack] := by
  rw [giveBack_of_slot hr hs]
  rfl

theorem own_giveBack (st : Core) (i : Nat) : (st.giveBack i).own = st.own := by
  unfold Core.giveBack
  split
  next => rfl
  next r _ =>
    cases r.slot with
    | none => rfl
    | some s =>
      show (st.settle i oweMatch).own = st.own
      rfl

theorem wf_giveBack (h : st.records.WF) (i : Nat) : (st.giveBack i).records.WF := by
  unfold Core.giveBack
  split
  next => exact h
  next r hr =>
    split
    next => exact h
    next s _ =>
      have hs : (st.settle i oweMatch).records.WF := (quiet_settle st i oweMatch).wf h
      exact hs.modify i _ fun _ _ => rfl

theorem nextId_giveBack (st : Core) (i : Nat) :
    (st.giveBack i).records.nextId = st.records.nextId := by
  unfold Core.giveBack
  split
  next => rfl
  split
  next => rfl
  next => exact (quiet_settle st i oweMatch).next

/-- The slot given back is free, every other is held as before. -/
theorem slotRec_giveBack_all (hr : st.recAt i = some r) {s : Nat} (hs : r.slot = some s) (t : Nat) :
    (st.giveBack i).slotRec t = if t = s then none else st.slotRec t := by
  by_cases ht : t = s
  · rw [if_pos ht, ht]
    exact slotRec_giveBack hr hs
  rw [giveBack_of_slot hr hs, if_neg ht]
  show (Core.modSlot _ s _).slotRec t = _
  rw [Core.slotRec_modSlot, if_neg ht]
  rfl

/-- What a record becomes when its slot goes with other fields of it is what it becomes when
they go first. -/
theorem quiet_giveBack_modRec (h : st.records.WF) (hr : st.recAt i = some r) {s : Nat}
    (hs : r.slot = some s) {f : Rec → Rec} (hf : ∀ q, (f q).place = q.place)
    (hcore : ∀ q, q.core = ({ r with slot := none } : Rec).core →
      (f q).core = ({ f r with slot := none } : Rec).core) :
    Quiet ((st.giveBack i).modRec i f) ((st.modRec i f).giveBack i) := by
  have hrf : (st.modRec i f).recAt i = some (f r) := Core.recAt_modRec_self hr f
  have hsf : (f r).slot = some s := (place_slot (hf r)).trans hs
  have hid : (f r).localId = r.localId := place_localId (hf r)
  have hwf : (st.modRec i f).records.WF := (same_modRec fun q _ => hf q).wf h
  refine ⟨fun j => ?_, fun _ => wf_giveBack hwf i, ?_, fun t => ?_, ⟨[], ?_, fun m hm => ?_⟩, ?_⟩
  · by_cases hj : j = i
    · subst hj
      obtain ⟨p, hp, -, hpc⟩ := recAt_giveBack hr
      obtain ⟨q, hq, -, hqc⟩ := recAt_giveBack hrf
      rw [hq, Core.recAt_modRec_self hp]
      exact congrArg some (hqc.trans (hcore p hpc).symm)
    · rw [recAt_giveBack_ne hj, Core.recAt_modRec_ne hj, Core.recAt_modRec_ne hj,
        recAt_giveBack_ne hj]
  · rw [nextId_giveBack]
    exact (nextId_giveBack st i).symm
  · rw [slotRec_giveBack_all hrf hsf]
    exact (slotRec_giveBack_all hr hs t).symm
  · rw [trace_giveBack hrf hsf, hid, List.append_nil]
    exact (trace_giveBack hr hs).symm
  · cases hm
  · rw [own_giveBack]
    exact (own_giveBack st i).symm

variable {owed : Bool}

/-- A record that is FULL gives its slot back, and is asked again when it no longer is. -/
theorem Heard.hearFull {seen : Bool} (h : Heard A i seen owed r st) (flags : Nat)
    (haveBlob : Bool) (now : Nat) :
    ∃ r', Records.idOf r' = Records.idOf r ∧
      Heard A i seen owed r' (st.hearFull i flags haveBlob now) := by
  unfold Core.hearFull
  rw [h.1]
  dsimp only
  split
  next =>
    -- it holds no slot for us
    obtain ⟨f, hf⟩ : ∃ f : Rec → Rec, f = fun x =>
      { x with full := true, reask := !hasFlag flags flagOne, askMissed := false, want := .no } := ⟨_, rfl⟩
    have hplace : ∀ q, (f q).place = q.place := fun q => by rw [hf]; rfl
    have hwant : ∀ q, (f q).want = .no := fun q => by rw [hf]
    have hcore : ∀ q, (f q).core = (q.place, .no, true, q.metaVersion, q.advVersion) := fun q => by
      rw [hf]
      rfl
    obtain ⟨r₁, hc₁, h₁⟩ := h.quiet (quiet_settle st i oweMatch)
    have hslot : r₁.slot = r.slot := place_slot (core_place hc₁)
    have hid : Records.idOf r₁ = Records.idOf r := place_idOf (core_place hc₁)
    rw [← hf]
    split
    next hsome =>
      obtain ⟨s, hs⟩ := Option.isSome_iff_exists.mp hsome
      obtain ⟨r₂, hc₂, h₂⟩ := h₁.giveBack
      have hnone : r₂.slot = none := place_slot (core_place hc₂)
      have hc := h₂.calm
      have h₃ : Heard A i seen owed (f r₂) (((st.settle i oweMatch).giveBack i).modRec i f) := by
        refine h₂.modRec (hplace r₂) ⟨fun _ => hwant r₂, fun _ => ⟨?_, hwant r₂⟩, ?_, ?_⟩
        · exact (place_slot (hplace r₂)).trans hnone
        · rw [hf]
          exact hc.version
        · rw [hf]
          exact hc.judged
      have hq := quiet_giveBack_modRec (h₁.2.2.elim fun _ hI => hI.1.store) h₁.1 (hslot.trans hs) hplace
        fun q hq => by
          rw [hcore q, core_place hq, core_metaVersion hq, core_advVersion hq]
          show _ = (({ f r₁ with slot := none } : Rec).place, (f r₁).want, (f r₁).full,
            (f r₁).metaVersion, (f r₁).advVersion)
          rw [hf]
          rfl
      have hopen : Quiet (((st.settle i oweMatch).modRec i f).giveBack i)
          { ((st.settle i oweMatch).modRec i f).giveBack i with slotsOpened := true } :=
        Quiet.of rfl rfl rfl rfl
      obtain ⟨r₄, hc₄, h₄⟩ := h₃.quiet (hq.trans hopen)
      refine ⟨r₄, ?_, h₄⟩
      rw [place_idOf (core_place hc₄), place_idOf (hplace r₂), place_idOf (core_place hc₂)]
      exact hid
    next hnone =>
      have hc := h₁.calm
      have hs : r₁.slot = none := hslot.trans (Option.not_isSome_iff_eq_none.mp hnone)
      refine ⟨f r₁, (place_idOf (hplace r₁)).trans hid,
        h₁.modRec (hplace r₁) ⟨fun _ => hwant r₁, fun _ => ⟨?_, hwant r₁⟩, ?_, ?_⟩⟩
      · exact (place_slot (hplace r₁)).trans hs
      · rw [hf]
        exact hc.version
      · rw [hf]
        exact hc.judged
  next =>
    split
    next =>
      split
      next =>
        -- it holds one again
        have hc := h.calm
        exact ⟨{ r with full := false, reask := false, refetch := r.refetch || !haveBlob }, rfl,
          h.modRec rfl ⟨hc.want, fun hf => (by cases hf), hc.version, hc.judged⟩⟩
      next =>
        split
        next =>
          have hq : Quiet (st.ask i oweMatch now)
              ((st.ask i oweMatch now).modRec i fun x => { x with askTries := 1 }) :=
            quiet_modRec fun _ _ => rfl
          obtain ⟨r', hc', h'⟩ := h.quiet ((quiet_ask st i oweMatch now).trans hq)
          exact ⟨r', place_idOf (core_place hc'), h'⟩
        next => exact ⟨r, rfl, h⟩
    next => exact ⟨r, rfl, h⟩

/-! ## The record that is heard -/

theorem recAt_setState (hr : st.recAt i = some r) (state : RecState) :
    Core.recAt { st with records := st.records.setState i state } i = some { r with state := state } := by
  show (st.records.setState i state).get i = _
  rw [Records.get_setState, if_pos rfl]
  exact congrArg (Option.map _) hr

/-- A record that is met for the first time has the status of none; one that is known, its own. -/
theorem hearRecord_spec {v : Bool × Phase} {first : Bool} (h : Inv A (only i v) st)
    (hr : st.recAt i = some r)
    (hv : first = true ∧ v = (false, .off) ∧ r.slot = none ∨ first = false ∧ v = r.status)
    (w : Wire) (addr : Addr) (haveBlob : Bool) (now : Nat) :
    ∃ r', r'.uuid = r.uuid ∧ Heard A i true (st.hearRecord i w addr haveBlob first now).2.2 r'
      (st.hearRecord i w addr haveBlob first now).1 := by
  obtain ⟨r₀, hr₀, hc₀⟩ := (minor_takeName st i w.name).quiet.fwd hr
  have hp₀ := core_place hc₀
  unfold Core.hearRecord
  rw [hr₀]
  dsimp only
  have hstate : r₀.state = r.state := place_state hp₀
  have hslot : r₀.slot = r.slot := place_slot hp₀
  -- the seen hook is owed a call on a first contact or a return
  have h₁ : Heard A i (!(first || r₀.state = .dropped)) (decide (r₀.state = .dropped))
      { r₀ with state := .active }
      { st.takeName i w.name with records := (st.takeName i w.name).records.setState i .active } := by
    refine ⟨recAt_setState hr₀ .active, rfl, v.2, ?_, fun hs => ?_, fun hs => ?_⟩
    · have hI := (h.quiet (minor_takeName st i w.name).quiet).setState hr₀ (only_self v) .active
      have hseen : (!(first || decide (r₀.state = .dropped))) = v.1 := by
        rcases hv with ⟨hf, hv, -⟩ | ⟨hf, hv⟩
        · rw [hf, hv]
          rfl
        · rw [hf, hv]
          show (!decide (r₀.state = .dropped)) = decide (r.state = .active)
          rw [hstate]
          cases r.state <;> rfl
      rw [hseen]
      exact hI
    · have hs' : r.slot = none := hslot.symm.trans hs
      rcases hv with ⟨-, hv, -⟩ | ⟨-, hv⟩
      · rw [hv]
      · rw [hv]
        unfold Rec.status
        rw [hs']
        rfl
    · have hs' : r.slot ≠ none := fun hc => hs (hslot.trans hc)
      rcases hv with ⟨-, -, hn⟩ | ⟨-, hv⟩
      · exact absurd hn hs'
      · rw [hv, hstate]
        unfold Rec.status
        rw [if_neg hs']
        cases r.state with
        | active => exact ⟨fun hc => (by cases hc), Or.inl rfl⟩
        | dropped => exact ⟨fun hc => (by cases hc), Or.inr rfl⟩
  obtain ⟨st₁, hst₁⟩ : ∃ st₁ : Core, st₁ =
    { st.takeName i w.name with records := (st.takeName i w.name).records.setState i .active } := ⟨_, rfl⟩
  rw [← hst₁] at h₁ ⊢
  have hq : Quiet st₁ (st₁.modRec i fun x =>
      { x with lastHeard := now, uni := if hasFlag w.flags flagUni then now else x.uni }) :=
    quiet_modRec fun _ _ => rfl
  obtain ⟨r₂, hc₂, h₂⟩ := h₁.quiet (hq.trans (minor_hearOne _ i w.flags).quiet)
  obtain ⟨r₃, hid₃, h₃⟩ := h₂.hearFull w.flags haveBlob now
  obtain ⟨st₃, hst₃⟩ : ∃ st₃, st₃ = ((st₁.modRec i fun x =>
      { x with lastHeard := now, uni := if hasFlag w.flags flagUni then now else x.uni }).hearOne i
        w.flags).hearFull i w.flags haveBlob now := ⟨_, rfl⟩
  rw [← hst₃] at h₃ ⊢
  obtain ⟨addr', haddr'⟩ : ∃ a, a = st₃.rankedAddr ((st₃.recAt i).getD r₀) addr now := ⟨_, rfl⟩
  rw [← haddr']
  have hqa : Quiet st₃ (st₃.modRec i fun x => { x with addr := addr' }) := quiet_modRec fun _ _ => rfl
  obtain ⟨r₄, hc₄, h₄⟩ := h₃.quiet hqa
  have hid : Records.idOf r₄ = Records.idOf r₀ := by
    rw [place_idOf (core_place hc₄), hid₃, place_idOf (core_place hc₂)]
    rfl
  refine ⟨r₄, congrArg Prod.fst (hid.trans (place_idOf hp₀)), ?_⟩
  obtain ⟨hr₄, ha₄, p, hI₄, hoff, hon⟩ := h₄
  have hon' : r₄.slot ≠ none → p ≠ .off ∧
      (p = .on ∨ (decide (r₀.state = .dropped) || decide (r₀.addr ≠ addr')) = true) := fun hs =>
    ⟨(hon hs).1, (hon hs).2.imp id fun ho => by rw [ho]; rfl⟩
  split
  next hcall =>
    rw [hcall] at hI₄
    have hlocal : r₄.localId = r₀.localId := congrArg Prod.snd hid
    have hheard : (only i (!true, p) i).getD r₄.status = (false, p) := by
      rw [only_self]
      rfl
    have hhook : Inv A ((only i (!true, p)).set i (true, p))
        ((st₃.modRec i fun x => { x with addr := addr' }).note (.seen r₀.localId addr' true)) := by
      have hcalled : (Mark.seen r₀.localId addr' true).hookId = some r₄.localId :=
        congrArg some hlocal.symm
      refine hI₄.hook hr₄ hcalled rfl ?_ ?_
      · rw [hheard, hlocal, heardNext_seen]
        rfl
      · rw [hheard]
        rfl
    refine ⟨hr₄, ha₄, p, hhook.agree fun j q _ => ?_, hoff, hon'⟩
    by_cases hj : j = i
    · subst hj
      rw [Override.set_self, only_self]
    · rw [Override.set_ne _ hj, only_ne hj, only_ne hj]
  next hcall =>
    rw [Bool.not_eq_true] at hcall
    rw [hcall] at hI₄
    exact ⟨hr₄, ha₄, p, hI₄, hoff, hon'⟩

/-- Whether a datagram's age says that its sender's overlay was out before ours. -/
def Ground.Older (A : Ground) (w : Wire) (now : Nat) : Prop :=
  w.changedAgoMs * 1000 > (if A.own.1 && now > A.own.2.1 then now - A.own.2.1 else 0) + judgeMarginUs

/-- What a core takes for judged comes from one older. -/
theorem older_of_assumeJudged {w : Wire} {now : Nat} (hown : st.own = A.own)
    (h : st.assumeJudged w now = true) : A.Older w now := by
  unfold Core.assumeJudged at h
  rw [Bool.and_eq_true, decide_eq_true_eq] at h
  unfold Ground.Older
  rw [← hown]
  exact h.2

/-- Its overlay is judged, assumed judged, fetched or refused. -/
theorem Heard.hearBlob {w : Wire} {now : Nat} (h : Heard A i true owed r st)
    (hv : w.version ≤ r.advVersion) (env : Env) (haveBlob tooBig first : Bool)
    (hA : A.Older w now → A.assumed r.uuid) :
    Owing A i (owed || (st.hearBlob env i w haveBlob tooBig first now).2)
      (st.hearBlob env i w haveBlob tooBig first now).1 := by
  obtain ⟨hr, ha, p, hI, hoff, hon⟩ := h
  have h : Heard A i true owed r st := ⟨hr, ha, p, hI, hoff, hon⟩
  unfold Core.hearBlob
  split
  next => exact h.judge hv env w.overlay w.flags
  rw [hr]
  dsimp only
  split
  next =>
    split
    next hfree =>
      rw [Bool.and_eq_true, decide_eq_true_eq, Bool.not_eq_true'] at hfree
      obtain ⟨hs, hf⟩ := hfree
      have hp := hoff hs
      subst hp
      obtain ⟨h1, -, h3⟩ := seat_spec hI (fun j hne => only_ne hne _) (only_self _) hr hs ha hf .yes
      split
      next st' s heq =>
        rw [heq] at h1 h3
        rcases h3 with ⟨hc, -⟩ | ⟨s', hs', hr'⟩
        · cases hc
        · refine ⟨_, .off, hr', ha, h1, fun _ => rfl, fun _ => Or.inr ?_⟩
          rw [Bool.or_true]
      next st' heq =>
        rw [heq] at h1 h3
        rcases h3 with ⟨-, hr'⟩ | ⟨s', hs', -⟩
        · have h' : Heard A i true owed r st' := ⟨hr', ha, .off, h1, fun _ => rfl, fun hc => absurd hs hc⟩
          obtain ⟨r', -, h''⟩ := h'.refuse hs hf
          exact h''.owing false
        · cases hs'
    next => exact h.owing false
  next =>
    split
    next hassume =>
      rw [Bool.and_eq_true] at hassume
      have hc := h.calm
      have h' : Heard A i true owed { r with metaVersion := w.version }
          (st.modRec i fun x => { x with metaVersion := w.version }) :=
        h.modRec rfl ⟨hc.want, hc.full, hv,
          fun _ => Or.inr (hA (older_of_assumeJudged hI.own hassume.2))⟩
      exact h'.owing false
    next =>
      split
      next hwait =>
        have hwaiting : r.waiting = true := by
          rw [Bool.and_eq_true] at hwait
          exact hwait.1
        unfold Rec.waiting at hwaiting
        rw [Bool.and_eq_true, Bool.and_eq_true] at hwaiting
        have hs : r.slot = none := of_decide_eq_true hwaiting.1.2
        have hwant : r.want ≠ .no := of_decide_eq_true hwaiting.2
        have hf : r.full = false := by
          cases hfull : r.full with
          | false => rfl
          | true => exact absurd (h.calm.full hfull).2 hwant
        split
        next => exact (h.owing false).quiet (minor_offer st i now).quiet
        split
        next =>
          obtain ⟨r', -, h'⟩ := h.refuse hs hf
          exact h'.owing false
        next => exact h.owing false
      next => exact h.owing false

/-- The path a datagram came by is the slot's alone. -/
theorem quiet_heardFrom (st : Core) (s : Nat) (x : Rec) (src : Option Addr) (now : Nat) :
    Quiet st (st.heardFrom s x src now) := by
  unfold Core.heardFrom
  cases src with
  | none => exact Quiet.refl st
  | some a =>
    have hpath : Quiet st (st.modSlot s fun slot => slot.notePath a.ip now) :=
      quiet_modSlot fun _ => rfl
    dsimp only
    split
    next => exact hpath.trans (quiet_modSlot fun _ => rfl)
    next => exact hpath

/-- The peer up that is owed ends what a datagram began. -/
theorem Owing.hearUp (h : Owing A i owed st) (src : Option Addr) (addr : Addr)
    (now : Nat) : Inv A settled (st.hearUp i src addr owed now) := by
  obtain ⟨r, p, hr, ha, hI, hoff, hon⟩ := h
  -- in step as it is, when its own fields say so
  have hstep : (true, p) = r.status → Inv A settled st := by
    intro hp
    refine hI.agree fun j q hq => ?_
    by_cases hj : j = i
    · subst hj
      rw [hr] at hq
      cases hq
      rw [only_self]
      exact hp
    · rw [only_ne hj]
      rfl
  unfold Core.hearUp
  rw [hr]
  dsimp only
  split
  next hs =>
    refine hstep ?_
    unfold Rec.status
    rw [hoff hs, ha, hs]
    rfl
  next s hs =>
    have hlive : r.status = (true, .on) := by
      unfold Rec.status
      rw [ha, hs]
      rfl
    have hq := quiet_heardFrom st s r src now
    obtain ⟨st', hst'⟩ : ∃ st', st' = st.heardFrom s r src now := ⟨_, rfl⟩
    rw [← hst'] at hq ⊢
    split
    next =>
      obtain ⟨q, hq', hqc⟩ := hq.fwd hr
      have hid : q.localId = r.localId := place_localId (core_place hqc)
      have hstatus : (only i (true, p) i).getD q.status = (true, p) := by
        rw [only_self]
        rfl
      have hhook : Inv A ((only i (true, p)).set i (true, .on))
          (st'.note (.up r.localId addr (((st'.slots[s]?).map Slot.blob).getD []))) := by
        have hcalled : (Mark.up r.localId addr (((st'.slots[s]?).map Slot.blob).getD [])).hookId =
            some q.localId := congrArg some hid.symm
        refine (hI.quiet hq).hook hq' hcalled rfl ?_ ?_
        · rw [hstatus]
          rfl
        · rw [hstatus, hid, phaseNext_up]
          rfl
      refine hhook.agree fun j k hk => ?_
      by_cases hj : j = i
      · subst hj
        have hk' : st'.recAt j = some k := hk
        rw [hq'] at hk'
        cases hk'
        rw [Override.set_self]
        show (true, Phase.on) = q.status
        rw [place_status (core_place hqc), hlive]
      · rw [Override.set_ne _ hj, only_ne hj]
        rfl
    next hup =>
      have hp : p = .on := (hon (by rw [hs]; exact Option.some_ne_none s)).resolve_right hup
      exact (hstep (by rw [hp, hlive])).quiet hq

/-- The version it advertises is the newest heard. -/
theorem Heard.advertise (h : Heard A i true owed r st) (version : Nat) :
    ∃ r', r'.uuid = r.uuid ∧ version ≤ r'.advVersion ∧
      Heard A i true owed r' (st.advertise i version) := by
  have hc := h.calm
  unfold Core.advertise
  by_cases hnew : version > r.advVersion
  · have hf : (if version > r.advVersion then { r with advVersion := version, tooBig := false } else r) =
        { r with advVersion := version, tooBig := false } := if_pos hnew
    have h' := h.modRec (f := fun x =>
      if version > x.advVersion then { x with advVersion := version, tooBig := false } else x)
      (by show (if version > r.advVersion then _ else r).place = _; rw [hf]; rfl)
      (by
        show Rec.Calm A st.trace (if version > r.advVersion then _ else r)
        rw [hf]
        exact ⟨hc.want, hc.full, Nat.le_trans hc.version (Nat.le_of_lt hnew), hc.judged⟩)
    rw [hf] at h'
    exact ⟨{ r with advVersion := version, tooBig := false }, rfl, Nat.le_refl _, h'⟩
  · have hf : (if version > r.advVersion then { r with advVersion := version, tooBig := false } else r) =
        r := if_neg hnew
    have h' := h.modRec (f := fun x =>
      if version > x.advVersion then { x with advVersion := version, tooBig := false } else x)
      (by show (if version > r.advVersion then _ else r).place = _; rw [hf])
      (by
        show Rec.Calm A st.trace (if version > r.advVersion then _ else r)
        rw [hf]
        exact hc)
    rw [hf] at h'
    exact ⟨r, rfl, Nat.le_of_not_lt hnew, h'⟩

/-- A record that is heard is in step again at the end. -/
theorem Inv.hear {v : Bool × Phase} {first : Bool} (h : Inv A (only i v) st) (hr : st.recAt i = some r)
    (hv : first = true ∧ v = (false, .off) ∧ r.slot = none ∨ first = false ∧ v = r.status)
    (env : Env) (w : Wire) (src : Option Addr) (addr : Addr) (haveBlob : Bool) (tooBig now : Nat)
    (hA : A.Older w now → A.assumed r.uuid) :
    Inv A settled (st.hear env i w src addr haveBlob tooBig first now) := by
  obtain ⟨r₁, hu₁, h₁⟩ := hearRecord_spec h hr hv w addr haveBlob now
  unfold Core.hear
  obtain ⟨⟨st₁, addr', upOwed⟩, hst₁⟩ : ∃ o, o = st.hearRecord i w addr haveBlob first now := ⟨_, rfl⟩
  rw [← hst₁] at h₁ ⊢
  obtain ⟨r₂, hu₂, hv₂, h₂⟩ := h₁.advertise w.version
  dsimp only at h₂ ⊢
  obtain ⟨st₃, hst₃⟩ : ∃ st₃, st₃ = if tooBig ≠ 0 then
      (st₁.advertise i w.version).tooBig i addr' tooBig else st₁.advertise i w.version := ⟨_, rfl⟩
  have hq : Quiet (st₁.advertise i w.version) st₃ := by
    rw [hst₃]
    split
    next => exact (minor_tooBig _ i addr' tooBig).quiet
    next => exact Quiet.refl _
  rw [← hst₃]
  obtain ⟨r₃, hc₃, h₃⟩ := h₂.quiet hq
  have huuid : r₃.uuid = r.uuid := by
    rw [place_uuid (core_place hc₃), hu₂, hu₁]
  have hadv : w.version ≤ r₃.advVersion := by
    rw [core_advVersion hc₃]
    exact hv₂
  have hassume : A.Older w now → A.assumed r₃.uuid := by
    rw [huuid]
    exact hA
  have h₄ := h₃.hearBlob hadv env haveBlob (decide (tooBig ≠ 0)) first hassume
  obtain ⟨⟨st₄, up⟩, hst₄⟩ : ∃ o, o = st₃.hearBlob env i w haveBlob (decide (tooBig ≠ 0)) first now :=
    ⟨_, rfl⟩
  rw [← hst₄] at h₄ ⊢
  have h₅ := h₄.quiet ((minor_fetchCheck st₄ i now).quiet.trans (minor_oweHeard _ i w now).quiet)
  rw [Bool.or_comm] at h₅
  exact (h₅.hearUp src addr' now).quiet (minor_offerOpened _ now).quiet

/-! ## A record for who has none -/

/-- No record is of the uuid. -/
def Absent (u : Bytes) (st : Core) : Prop := ∀ j q, st.recAt j = some q → q.uuid ≠ u

variable {u : Bytes}

/-- Nobody comes by another's going. -/
theorem Absent.peerGone (h : Absent u st) (i : Nat) : Absent u (st.peerGone i) := by
  intro j q hq
  rw [recAt_peerGone] at hq
  split at hq
  next => cases hq
  next => exact h j q hq

theorem Absent.quiet {st' : Core} (h : Absent u st) (g : Quiet st st') : Absent u st' := by
  intro j q hq
  obtain ⟨q', hq', hc⟩ := g.bwd hq
  rw [← place_uuid (core_place hc)]
  exact h j q' hq'

/-- A record that was made, which no hook has heard of, or none. -/
def Met (A : Ground) (u : Bytes) (o : Core × Option Nat) : Prop :=
  (o.2 = none ∧ Inv A settled o.1 ∧ Absent u o.1) ∨ ∃ i r, o.2 = some i ∧ o.1.recAt i = some r ∧
    r.uuid = u ∧ r.slot = none ∧ Inv A (only i (false, .off)) o.1

/-- A record added is the stranger's. -/
theorem met_addRecord (h : Inv A settled st) (hu : Absent u st) (env : Env) :
    Met A u (st.addRecord env u) := by
  rcases h.addRecord env hu with ⟨h1, h2, h3⟩ | ⟨i, q, h1, h2, h3, -, h5⟩
  · refine Or.inl ⟨h1, h2, fun j q hq => ?_⟩
    rw [h3] at hq
    exact hu j q hq
  · refine Or.inr ⟨i, q, h1, h2, ?_, ?_, h5⟩
    · rw [h3]
    · rw [h3]

/-- So is one taken when the oldest dropped makes room. -/
theorem met_recordTake (h : Inv A settled st) (hu : Absent u st) (env : Env) :
    Met A u (st.recordTake env u) := by
  have hadd := met_addRecord h hu env
  unfold Core.recordTake
  split
  next st' i heq =>
    rw [heq] at hadd
    exact hadd
  next st' heq =>
    rw [heq] at hadd
    rcases hadd with ⟨-, h2, h3⟩ | ⟨i, r, hc, -⟩
    · split
      next => exact Or.inl ⟨rfl, h2, h3⟩
      next victim t _ =>
        have hq : Quiet (st'.peerGone victim) { st'.peerGone victim with distrust := true } :=
          Quiet.of rfl rfl rfl rfl
        exact met_addRecord ((h2.peerGone rfl).quiet hq) ((h3.peerGone victim).quiet hq) env
    · cases hc

/-- So is one an unmatched record makes room for. -/
theorem met_recordEvict (h : Inv A settled st) (hu : Absent u st) (env : Env)
    (isMatch : Bool) : Met A u (st.recordEvict env u isMatch) := by
  unfold Core.recordEvict
  split
  next => exact Or.inl ⟨rfl, h, hu⟩
  next victim uni t _ =>
    split
    next => exact Or.inl ⟨rfl, h, hu⟩
    next =>
      have hq : Quiet (st.peerGone victim) (st.peerGone victim).forgot := Quiet.of rfl rfl rfl rfl
      exact met_addRecord ((h.peerGone rfl).quiet hq) ((hu.peerGone victim).quiet hq) env

/-- Who answered at the stranger's endpoint goes. -/
theorem evictEndpoint_spec (h : Inv A settled st) (hu : Absent u st) (addr : Addr) :
    Inv A settled (st.evictEndpoint addr) ∧ Absent u (st.evictEndpoint addr) := by
  unfold Core.evictEndpoint
  split
  next => exact ⟨h, hu⟩
  generalize List.range st.records.cap = is
  induction is generalizing st with
  | nil => exact ⟨h, hu⟩
  | cons i is ih =>
    rw [List.foldl_cons]
    split
    next => exact ih (h.peerGone rfl) (hu.peerGone i)
    next => exact ih h hu

/-- A stranger is left without a record, or with one that was heard. -/
theorem meetStranger_spec (h : Inv A settled st) {w : Wire} (hu : Absent w.uuid st) (env : Env)
    (addr : Addr) (haveBlob : Bool) :
    ((st.meetStranger env w addr haveBlob).2.1 = none ∧
        Inv A settled (st.meetStranger env w addr haveBlob).1) ∨
      ∃ i r, (st.meetStranger env w addr haveBlob).2.1 = some i ∧
        (st.meetStranger env w addr haveBlob).1.recAt i = some r ∧ r.uuid = w.uuid ∧ r.slot = none ∧
        Inv A (only i (false, .off)) (st.meetStranger env w addr haveBlob).1 := by
  obtain ⟨h1, hu1⟩ := evictEndpoint_spec h hu addr
  have htake := met_recordTake h1 hu1 env
  unfold Core.meetStranger
  split
  next st' i heq =>
    rw [heq] at htake
    rcases htake with ⟨hc, -, -⟩ | ⟨i', r, hi, hr, hru, hs, hI⟩
    · cases hc
    · exact Or.inr ⟨i', r, hi, hr, hru, hs, hI⟩
  next st' heq =>
    rw [heq] at htake
    rcases htake with ⟨-, h2, hu2⟩ | ⟨i', r, hi, -⟩
    · have hq := (minor_strangerVerdict st' env w haveBlob).quiet
      obtain ⟨⟨st'', v⟩, hst''⟩ : ∃ o, o = st'.strangerVerdict env w haveBlob := ⟨_, rfl⟩
      rw [← hst''] at hq ⊢
      dsimp only
      split
      next =>
        rcases met_recordEvict (h2.quiet hq) (hu2.quiet hq) env (decide (v = .yes)) with
          ⟨hn, hI, -⟩ | ⟨i', r, hi, hr, hru, hs, hI⟩
        · exact Or.inl ⟨hn, hI⟩
        · exact Or.inr ⟨i', r, hi, hr, hru, hs, hI⟩
      next => exact Or.inl ⟨rfl, h2.quiet hq⟩
    · cases hi

/-! ## A datagram -/

/-- A record that is known, alone out of step with what it says itself. -/
theorem Inv.known (h : Inv A settled st) (hr : st.recAt i = some r) : Inv A (only i r.status) st := by
  refine h.agree fun j q hq => ?_
  by_cases hj : j = i
  · subst hj
    rw [hr] at hq
    cases hq
    rw [only_self]
    rfl
  · rw [only_ne hj]
    rfl

/-- A datagram of a record or of a stranger keeps the invariant. -/
theorem Inv.arrive (h : Inv A settled st) (env : Env) (w : Wire) (src : Option Addr) (haveBlob : Bool)
    (tooBig now : Nat)
    (hA : hasFlag w.flags flagBye = false → A.Older w now → A.assumed w.uuid) :
    Inv A settled (st.arrive env w src haveBlob tooBig now) := by
  unfold Core.arrive
  dsimp only
  split
  next =>
    have hleft := h.quiet (minor_leftNote st w.uuid now).quiet
    refine Inv.quiet ?_ (minor_offerOpened _ now).quiet
    split
    next i _ => exact hleft.peerGone rfl
    next => exact hleft
  next hbye =>
    have hA' := hA (Bool.not_eq_true _ ▸ hbye)
    split
    next => exact h
    split
    next => exact h
    split
    next i hfind =>
      obtain ⟨r, hr, hu⟩ := Records.find_some hfind
      have hr' : st.recAt i = some r := hr
      exact (h.known hr').hear hr' (Or.inr ⟨rfl, rfl⟩) env w src _ haveBlob tooBig now (by rw [hu]; exact hA')
    next hfind =>
      have habs : Absent w.uuid st := fun j q hq => h.store.find_none hfind j q hq
      split
      next st' i v heq =>
        rcases meetStranger_spec h habs env _ haveBlob with ⟨hn, -⟩ | ⟨i', r, hi, hr, hu, hs, hI⟩
        · rw [heq] at hn
          cases hn
        · rw [heq] at hi hr hI
          cases hi
          exact hI.hear hr (Or.inl ⟨rfl, rfl, hs⟩) env w src _ haveBlob tooBig now (by rw [hu]; exact hA')
      next st' v heq =>
        rcases meetStranger_spec h habs env _ haveBlob with ⟨-, hI⟩ | ⟨i', r, hi, -⟩
        · rw [heq] at hI
          exact hI.quiet (minor_stranger st' w _ v now).quiet
        · rw [heq] at hi
          cases hi

/-- So does any datagram, malformed and foreign ones too. -/
theorem Inv.onDatagram (h : Inv A settled st) (env : Env) (src : Option Addr) (d : Bytes) (now : Nat)
    (hA : hasFlag (decode d).2.flags flagBye = false → A.Older (decode d).2 now →
      A.assumed (decode d).2.uuid) :
    Inv ⟨A.assumed, Core.own { st with now := now }⟩ settled (st.onDatagram env src d now) := by
  have h' : Inv ⟨A.assumed, Core.own { st with now := now }⟩ settled { st with now := now } :=
    h.reown rfl rfl rfl
  have hA' : hasFlag (decode d).2.flags flagBye = false →
      Ground.Older ⟨A.assumed, Core.own { st with now := now }⟩ (decode d).2 now →
        A.assumed (decode d).2.uuid := by
    intro hbye hold
    refine hA hbye ?_
    unfold Ground.Older
    rw [← h.own]
    exact hold
  unfold Core.onDatagram
  dsimp only
  split
  next => exact h'
  split
  next => exact h'.quiet (minor_wireMismatch _ src _).quiet
  split
  next => exact h'
  next => exact h'.arrive env _ _ _ _ now hA'

/-! ## The clock -/

/-- A record the sweep finds silent drops, and one long dropped goes. -/
theorem Inv.sweepAt (h : Inv A settled st) (now i : Nat) : Inv A settled (Core.sweepAt now st i) := by
  unfold Core.sweepAt
  split
  next => exact h
  next r hr =>
    split
    next =>
      split
      next => exact h.peerGone rfl
      next => exact h
    next hnd =>
      have hactive : r.state = .active := by
        cases hst : r.state with
        | active => rfl
        | dropped => exact absurd hst hnd
      split
      next =>
        have hdrop := (h.known hr).setState hr (only_self r.status) .dropped
        have hr₁ := recAt_setState hr .dropped
        obtain ⟨st₁, hst₁⟩ : ∃ st₁ : Core,
          st₁ = { st with records := st.records.setState i .dropped } := ⟨_, rfl⟩
        rw [← hst₁] at hdrop hr₁
        dsimp only
        rw [← hst₁]
        have hq := (quiet_settle st₁ i oweAll).trans (minor_refetchDone _ i).quiet
        obtain ⟨r₂, hr₂, hc₂⟩ := hq.fwd hr₁
        have hid : r₂.localId = r.localId := (place_localId (core_place hc₂)).trans rfl
        have hslot : r₂.slot = r.slot := (place_slot (core_place hc₂)).trans rfl
        have hstate : r₂.state = .dropped := place_state (core_place hc₂)
        obtain ⟨st₂, hst₂⟩ : ∃ st₂, st₂ = (st₁.settle i oweAll).refetchDone i := ⟨_, rfl⟩
        rw [← hst₂] at hq hr₂ ⊢
        have hon : (only i r.status i).getD r₂.status =
            (true, if r.slot = none then Phase.off else .on) := by
          rw [only_self]
          show r.status = _
          unfold Rec.status
          rw [hactive]
          rfl
        -- lost, as the seen hook hears first
        have hseen : Inv A ((only i r.status).set i (false, if r.slot = none then Phase.off else .on))
            (st₂.note (.seen r.localId r.addr false)) := by
          have hcalled : (Mark.seen r.localId r.addr false).hookId = some r₂.localId :=
            congrArg some hid.symm
          refine (hdrop.quiet hq).hook hr₂ hcalled rfl ?_ ?_
          · rw [hon, hid, heardNext_seen]
            rfl
          · rw [hon]
            rfl
        have hr₃ : (st₂.note (.seen r.localId r.addr false)).recAt i = some r₂ := hr₂
        split
        next hsome =>
          obtain ⟨s, hs⟩ := Option.isSome_iff_exists.mp hsome
          have hon₃ : (((only i r.status).set i (false, if r.slot = none then Phase.off else .on)) i).getD
              r₂.status = (false, Phase.on) := by
            rw [Override.set_self, hs]
            rfl
          have hdown : Inv A (((only i r.status).set i
              (false, if r.slot = none then Phase.off else .on)).set i (false, .silent))
              ((st₂.note (.seen r.localId r.addr false)).note (.down r.localId .drop)) := by
            have hcalled : (Mark.down r.localId .drop).hookId = some r₂.localId :=
              congrArg some hid.symm
            refine hseen.hook hr₃ hcalled rfl ?_ ?_
            · rw [hon₃]
              rfl
            · rw [hon₃, hid, phaseNext_down]
              rfl
          have hq' : Quiet ((st₂.note (.seen r.localId r.addr false)).note (.down r.localId .drop))
              { (st₂.note (.seen r.localId r.addr false)).note (.down r.localId .drop) with
                slotsOpened := true } := Quiet.of rfl rfl rfl rfl
          refine (hdown.agree fun j q hq => ?_).quiet hq'
          by_cases hj : j = i
          · subst hj
            have hq₃ : st₂.recAt j = some q := hq
            rw [hr₂] at hq₃
            cases hq₃
            rw [Override.set_self]
            show (false, Phase.silent) = r₂.status
            unfold Rec.status
            rw [hstate, hslot, hs]
            rfl
          · rw [Override.set_ne _ hj, Override.set_ne _ hj, only_ne hj]
            rfl
        next hnone =>
          have hs : r.slot = none := Option.not_isSome_iff_eq_none.mp hnone
          refine hseen.agree fun j q hq => ?_
          by_cases hj : j = i
          · subst hj
            have hq₃ : st₂.recAt j = some q := hq
            rw [hr₂] at hq₃
            cases hq₃
            rw [Override.set_self, hs]
            show (false, Phase.off) = r₂.status
            unfold Rec.status
            rw [hstate, hslot, hs]
            rfl
          · rw [Override.set_ne _ hj, only_ne hj]
            rfl
      next => exact h

/-- A pass over many keeps what each of its steps keeps. -/
theorem inv_foldl {β : Type} {f : Core → β → Core}
    (hf : ∀ st b, Inv A settled st → Inv A settled (f st b)) :
    ∀ (bs : List β) (st : Core), Inv A settled st → Inv A settled (bs.foldl f st) := by
  intro bs
  induction bs with
  | nil => intro st h; exact h
  | cons b bs ih => intro st h; exact ih _ (hf st b h)

theorem Inv.sweep (h : Inv A settled st) (now : Nat) : Inv A settled (st.sweep now) :=
  inv_foldl (fun _ i h => h.sweepAt now i) _ st h

theorem Inv.tick (h : Inv A settled st) (now : Nat) : Inv A settled (st.tick now) := by
  unfold Core.tick
  dsimp only
  refine Inv.quiet ?_ (minor_offerOpened _ now).quiet
  split
  next =>
    have hq : Quiet st { st with
        nextSweep := now + Nat.max (st.cfg.interval / sweepsPerInterval) 1 } :=
      Quiet.of rfl rfl rfl rfl
    exact (h.quiet hq).sweep now
  next => exact h

/-- A clock update sweeps, offers slots and announces. -/
theorem Inv.update (h : Inv A settled st) (now cap : Nat) :
    Inv ⟨A.assumed, (st.update now cap).1.own⟩ settled (st.update now cap).1 := by
  have hnow : Inv ⟨A.assumed, Core.own { st with now := now }⟩ settled { st with now := now } :=
    h.reown rfl rfl rfl
  have htick := hnow.tick now
  unfold Core.update
  dsimp only
  split
  next => exact h.reown rfl rfl rfl
  split
  next => exact htick.reown rfl rfl rfl
  split
  next => exact htick.reown rfl rfl rfl
  split
  next => exact htick.reown rfl rfl rfl
  next => exact htick.reown rfl rfl rfl

/-! ## The local calls -/

/-- A new overlay makes a new version of the core, not of its records. -/
theorem Inv.setMeta (h : Inv A settled st) (blob : Bytes) (now : Nat) :
    Inv ⟨A.assumed, (st.setMeta blob now).own⟩ settled (st.setMeta blob now) := by
  unfold Core.setMeta
  split
  next => exact h.reown rfl rfl rfl
  next => exact h.reown rfl rfl rfl

/-- A record judged again that kept its slot. -/
theorem rejudgeAt_kept (hr : st.recAt i = some r) {env : Env} {st' : Core}
    (h : st.rejudgeAt env i = (st', false)) : ∃ q, st'.recAt i = some q ∧ q.place = r.place := by
  unfold Core.rejudgeAt at h
  rw [hr] at h
  dsimp only at h
  split at h
  next =>
    cases h
    exact ⟨r, hr, rfl⟩
  next s hs =>
    obtain ⟨hq, -⟩ := quiet_verdict hr env (((st.slots[s]?).map Slot.blob).getD []) r.metaVersion
    split at h
    next => cases h
    next st₁ v _ heq =>
      rw [heq] at hq
      split at h
      next =>
        cases h
        have hm : Quiet st₁ (st₁.modSlot s fun slot => { slot with loan := false }) :=
          quiet_modSlot fun _ => rfl
        obtain ⟨q, hq', hqc⟩ := (hq.trans (hm.trans (quiet_ask _ i oweMatch _))).fwd hr
        exact ⟨q, hq', core_place hqc⟩
      next =>
        cases h
        obtain ⟨q, hq', hqc⟩ := hq.fwd hr
        exact ⟨q, hq', core_place hqc⟩

/-- A replay judges a seated peer again and tells of it. -/
theorem Inv.replayAt (h : Inv A settled st) (env : Env) (s : Nat) :
    Inv A settled (Core.replayAt env st s) := by
  unfold Core.replayAt
  split
  next => exact h
  next i hsr =>
    split
    next => exact h
    next r hr =>
      obtain ⟨r', hr', hs⟩ := (h.seats s i).mp hsr
      rw [hr] at hr'
      cases hr'
      split
      next => exact h
      next hact =>
        have hactive : r.state = .active := Decidable.not_not.mp hact
        have hI := h.rejudgeAt env i
        split
        next st' heq =>
          rw [heq] at hI
          exact hI
        next st' heq =>
          rw [heq] at hI
          obtain ⟨q, hq, hqc⟩ := rejudgeAt_kept hr heq
          have hid : q.localId = r.localId := place_localId hqc
          have hstatus : (settled i).getD q.status = (true, .on) := by
            show q.status = _
            unfold Rec.status
            rw [place_slot hqc, place_state hqc, hs, hactive]
            rfl
          have hcalled : (Mark.up r.localId r.addr (((st'.slots[s]?).map Slot.blob).getD [])).hookId =
              some q.localId := congrArg some hid.symm
          have hhook : Inv A (settled.set i (true, .on))
              (st'.note (.up r.localId r.addr (((st'.slots[s]?).map Slot.blob).getD []))) := by
            refine hI.hook hq hcalled rfl ?_ ?_
            · rw [hstatus]
              rfl
            · rw [hstatus, hid, phaseNext_up]
              rfl
          exact hhook.settle hq (Eq.symm hstatus) rfl

theorem Inv.replayPeers (h : Inv A settled st) (env : Env) : Inv A settled (st.replayPeers env) :=
  (inv_foldl (fun _ s h => h.replayAt env s) _ st h).quiet (minor_offerOpened _ _).quiet

theorem Inv.rejudge (h : Inv A settled st) (env : Env) (id : Nat) :
    Inv A settled (st.rejudge env id) := by
  unfold Core.rejudge
  split
  next => exact h.quiet (minor_offerOpened _ _).quiet
  next i _ => exact (h.rejudgeAt env i).quiet (minor_offerOpened _ _).quiet

/-! ## Runs -/

/-- What a datagram may make a core assume. -/
def Event.Grounded (A : Ground) : Event → Prop
  | .datagram _ _ d now => hasFlag (decode d).2.flags flagBye = false →
    A.Older (decode d).2 now → A.assumed (decode d).2.uuid
  | _ => True

theorem step_pollTargeted (st : Core) (now cap : Nat) :
    (st.step (.pollTargeted now cap)).1 = (st.pollTargeted now cap).1 := by
  unfold Core.step
  dsimp only
  rcases st.pollTargeted now cap with ⟨st', _ | ⟨a, d⟩⟩ <;> rfl

/-- Every event keeps the invariant. -/
theorem Inv.step (h : Inv A settled st) (e : Event) (hA : e.Grounded A) :
    Inv ⟨A.assumed, (st.step e).1.own⟩ settled (st.step e).1 := by
  cases e with
  | datagram env src d now => exact (h.onDatagram env src d now hA).reown rfl rfl rfl
  | update now cap => exact h.update now cap
  | pollTargeted now cap =>
    rw [step_pollTargeted]
    have hnow : Inv ⟨A.assumed, Core.own { st with now := now }⟩ settled { st with now := now } :=
      h.reown rfl rfl rfl
    exact (hnow.quiet (quiet_pollTargeted st now cap)).reown rfl rfl rfl
  | setMeta blob now => exact h.setMeta blob now
  | setLocalSubnets nets => exact h.reown rfl rfl rfl
  | solicit => exact h.reown rfl rfl rfl
  | replayPeers env => exact (h.replayPeers env).reown rfl rfl rfl
  | rejudge env id => exact (h.rejudge env id).reown rfl rfl rfl
  | refetchUnmatched check =>
    exact (h.quiet (minor_foldl (minor_refetchAt check) _ st).quiet).reown rfl rfl rfl
  | migrate maxPeers metaCap hlt =>
    exact (h.quiet (minor_migrate st maxPeers metaCap hlt).quiet).reown rfl rfl rfl
  | leave cap => exact h.reown rfl rfl rfl

/-- A core that anything may make assume anything. -/
def Ground.any (st : Core) : Ground := ⟨fun _ => True, st.own⟩

/-- So does every run. -/
theorem Inv.runs (h : Inv (.any st) settled st) (es : List Event) :
    Inv (.any (st.runs es)) settled (st.runs es) := by
  refine run_invariant (fun st => Inv (.any st) settled st) ?_ es st h
  intro st e h
  refine h.step e ?_
  cases e with
  | datagram => exact fun _ _ => trivial
  | _ => trivial

/-- A core knows nobody at first. -/
theorem recAt_init {cfg : Config} (h : Core.init cfg = some st) (i : Nat) (r : Rec) :
    ¬ st.recAt i = some r := by
  unfold Core.init at h
  split at h
  next => cases h
  obtain ⟨records, hrecords, hst⟩ := Option.map_eq_some_iff.mp h
  intro hr
  rw [← hst] at hr
  have hr' : records.get i = some r := hr
  rw [(Records.get_init hrecords).2] at hr'
  cases hr'

/-- A fresh core has no record. -/
theorem init_inv {cfg : Config} (h : Core.init cfg = some st) :
    Inv ⟨fun _ => False, st.own⟩ settled st := by
  have hrec := recAt_init h
  unfold Core.init at h
  split at h
  next => cases h
  obtain ⟨records, hrecords, hst⟩ := Option.map_eq_some_iff.mp h
  obtain ⟨hnext, -⟩ := Records.get_init hrecords
  have htrace : st.trace = [] := by rw [← hst]
  refine ⟨?_, fun s i => ?_, fun i r hr => absurd hr (hrec i r), fun m hm => ?_, fun _ => ?_, rfl⟩
  · rw [← hst]
    exact Records.init_wf hrecords
  · refine ⟨fun hs => ?_, fun ⟨r, hr, _⟩ => absurd hr (hrec i r)⟩
    rw [← hst] at hs
    unfold Core.slotRec at hs
    have hs' : ((List.replicate cfg.maxPeers (Slot.reset cfg))[s]?).bind Slot.holder = some i := hs
    rw [List.getElem?_replicate] at hs'
    split at hs'
    next => cases hs'
    next => cases hs'
  · rw [htrace] at hm
    cases hm
  · refine ⟨?_, fun i r hr => absurd hr (hrec i r), fun i j r q hr => absurd hr (hrec i r),
      fun i r hr => absurd hr (hrec i r), fun id _ => ?_, ?_, fun i r hr => absurd hr (hrec i r),
      fun m hm => ?_, fun id u hm => ?_⟩
    · rw [htrace, ← hst]
      exact hnext
    · rw [htrace]
      exact ⟨rfl, rfl⟩
    · rw [htrace]
      exact List.Pairwise.nil
    · rw [htrace] at hm
      cases hm
    · rw [htrace] at hm
      cases hm

end Rant.Discovery
