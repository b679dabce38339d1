import Rant.Discovery.Steps
/-!
# What a handler writes

Every handler but a datagram is `Edits`, a chain of writes. Two writes of a datagram are left to
`edits_hear`: the locator it gives its record and the path it leaves in the record's slot.
-/

namespace Rant.Discovery

open Rant.Lib
open Rant.Transport (Bytes)

variable {st : Core}

/-- A record an add leaves was there before, or is the one added, which owes nothing. -/
theorem get_add {r : Records} {mem : Records.Mem} {uuid : Bytes} {j : Nat} {y : Rec}
    (hy : (r.add mem uuid).1.get j = some y) :
    r.get j = some y ∨ ∃ id, y = { uuid := uuid, localId := id } := by
  unfold Records.add at hy
  obtain ⟨s, hs⟩ : ∃ s, s = if r.free = [] then (r.grow mem).getD r else r := ⟨_, rfl⟩
  have hget : ∀ i, s.get i = r.get i := by
    intro i
    rw [hs]
    split
    next =>
      cases hg : r.grow mem with
      | none => rfl
      | some r' => exact Records.get_grow hg i
    next => rfl
  rw [← hs] at hy
  dsimp only at hy
  split at hy
  next => exact Or.inl ((hget j).symm.trans hy)
  next i free _ =>
    have hput := Records.get_put s i (some { uuid := uuid, localId := s.takenId }) j
    have hy' : (s.put i (some { uuid := uuid, localId := s.takenId })).get j = some y := hy
    rw [hput] at hy'
    split at hy'
    next =>
      cases hy'
      exact Or.inr ⟨s.takenId, rfl⟩
    next => exact Or.inl ((hget j).symm.trans hy')

/-! ## Slots and records -/

theorem edits_goneHooks (st : Core) (x : Rec) : Edits st (st.goneHooks x) := by
  unfold Core.goneHooks
  refine edits_rest ?_ ?_ ?_ ?_ <;> (dsimp only; split <;> split <;> rfl)

/-- A peer that goes is unseated, then removed. -/
theorem edits_peerGone (st : Core) (i : Nat) : Edits st (st.peerGone i) := by
  unfold Core.peerGone
  split
  next => exact Edits.refl st
  next x _ =>
    dsimp only
    have hgone := edits_goneHooks st x
    cases x.slot with
    | none => exact hgone.trans ((Edit.remove _ i).edits.trans (edits_note _ _))
    | some s =>
      have hslot := hgone.trans
        (Edit.modSlot _ s (fun slot => { slot with holder := none }) fun _ => by rfl).edits
      refine Edits.trans ?_ (edits_note _ _)
      refine Edits.trans ?_ (Edit.remove _ i).edits
      exact hslot.trans (edits_rest rfl rfl rfl rfl)

/-- A slot given back is unbound from both sides. -/
theorem edits_giveBack (st : Core) (i : Nat) : Edits st (st.giveBack i) := by
  unfold Core.giveBack
  split
  next => exact Edits.refl st
  next x _ =>
    split
    next => exact Edits.refl st
    next s _ =>
      have h := ((edits_settle st i oweMatch).trans (edits_note _ (.down x.localId .giveBack))).trans
        (Edit.modSlot _ s (fun slot => { slot with holder := none }) fun _ => by rfl).edits
      exact h.trans (Edit.modRec _ i _ fun _ => ⟨by rfl, Or.inr (by rfl)⟩).edits

theorem edits_slotFind (st : Core) (verdict : Admit) : Edits st (st.slotFind verdict).1 := by
  unfold Core.slotFind
  split
  next => exact Edits.refl st
  split
  next => exact (edits_peerGone st _).trans (edits_rest rfl rfl rfl rfl)
  split
  next =>
    split
    next => exact Edits.refl st
    split
    next => exact (edits_giveBack st _).trans (edits_modRec _ _ (fun _ => by rfl) fun _ => by rfl)
    next => exact Edits.refl st
  next => exact Edits.refl st

theorem edits_slotTake (st : Core) (verdict : Admit) : Edits st (st.slotTake verdict).1 := by
  have h := edits_slotFind st verdict
  unfold Core.slotTake
  split
  next heq =>
    rw [heq] at h
    exact h.trans (edits_note _ _)
  next heq =>
    rw [heq] at h
    exact h

theorem edits_troubleDrop (st : Core) (kind : ErrorKind) (a : Addr) :
    Edits st (st.troubleDrop kind a) := edits_rest rfl rfl rfl rfl

/-- A seat is a slot taken, bound and lent or not. -/
theorem edits_seat (st : Core) (i : Nat) (verdict : Admit) : Edits st (st.seat i verdict).1 := by
  have h := edits_slotTake st verdict
  unfold Core.seat
  split
  next heq =>
    rw [heq] at h
    exact h
  next s heq =>
    rw [heq] at h
    have hbind := (h.trans (Edit.slotBind _ s i).edits).trans
      (Edit.modSlot _ s (fun slot => { slot with loan := verdict = .loan }) fun _ => by rfl).edits
    exact hbind.trans (edits_troubleDrop _ _ _)

theorem edits_addRecord (st : Core) (env : Env) (uuid : Bytes) :
    Edits st (st.addRecord env uuid).1 := by
  have h := (Edit.add st env.mem uuid).edits
  unfold Core.addRecord
  split
  next heq =>
    rw [heq] at h
    exact h.trans (edits_note _ _)
  next heq =>
    rw [heq] at h
    exact h

theorem edits_recordTake (st : Core) (env : Env) (uuid : Bytes) :
    Edits st (st.recordTake env uuid).1 := by
  have h := edits_addRecord st env uuid
  unfold Core.recordTake
  split
  next heq =>
    rw [heq] at h
    exact h
  next heq =>
    rw [heq] at h
    split
    next => exact h
    next =>
      refine Edits.trans ?_ (edits_addRecord _ env uuid)
      exact (h.trans (edits_peerGone _ _)).trans (edits_rest rfl rfl rfl rfl)

theorem edits_evictEndpoint (st : Core) (addr : Addr) : Edits st (st.evictEndpoint addr) := by
  unfold Core.evictEndpoint
  split
  next => exact Edits.refl st
  refine edits_foldl (fun st i => ?_) _ st
  split
  next => exact edits_peerGone st i
  next => exact Edits.refl st

theorem edits_recordEvict (st : Core) (env : Env) (uuid : Bytes) (isMatch : Bool) :
    Edits st (st.recordEvict env uuid isMatch).1 := by
  unfold Core.recordEvict
  split
  next => exact Edits.refl st
  split
  next => exact Edits.refl st
  next =>
    refine Edits.trans ?_ (edits_addRecord _ env uuid)
    exact (edits_peerGone st _).trans (edits_rest rfl rfl rfl rfl)

/-! ## Asks -/

theorem edits_refuse (st : Core) (i : Nat) : Edits st (st.refuse i) := by
  unfold Core.refuse
  split
  next => exact Edits.refl st
  have h : Edits st (st.modRec i fun x => { x with want := .yes }) :=
    edits_modRec st i (fun _ => by rfl) fun _ => by rfl
  refine Edits.trans ?_ (edits_note _ _)
  refine Edits.trans ?_ (minor_troubleNote _ _ _ _ _).edits
  exact h.trans (edits_rest rfl rfl rfl rfl)

/-! ## Judging -/

theorem edits_verdict (st : Core) (env : Env) (i : Nat) (blob : Bytes) (version : Nat) :
    Edits st (st.verdict env i blob version).1 := by
  unfold Core.verdict
  split
  next => exact Edits.refl st
  next x _ =>
    dsimp only
    have hasked : Edits st (if st.cfg.admits then st.note (.asked x.localId blob version) else st) := by
      split
      next => exact edits_note st _
      next => exact Edits.refl st
    exact (hasked.trans (edits_note _ _)).trans (edits_modRec _ i (fun _ => by rfl) fun _ => by rfl)

theorem edits_kept (st : Core) (i s : Nat) (verdict : Admit) (version flags : Nat) (fresh : Bool) :
    Edits st (st.kept i s verdict version flags fresh) := by
  unfold Core.kept
  have h : Edits st (st.modRec i fun x => { x with metaVersion := version }) :=
    edits_modRec st i (fun _ => by rfl) fun _ => by rfl
  have hslot : Edits st (if verdict = .yes then
      (st.modRec i fun x => { x with metaVersion := version }).modSlot s fun slot =>
        { slot with loan := false }
      else st.modRec i fun x => { x with metaVersion := version }) :=
    edits_ite (h.trans (Edit.modSlot _ s _ fun _ => by rfl).edits) h
  exact edits_ite (hslot.trans (edits_ask _ i rfl _)) hslot

theorem edits_judgeSeat (st : Core) (env : Env) (i : Nat) (blob : Bytes) (v : Admit)
    (version flags : Nat) : Edits st (st.judgeSeat env i blob v version flags).1 := by
  have h := edits_seat st i v
  unfold Core.judgeSeat
  split
  next heq =>
    rw [heq] at h
    have hv := h.trans (edits_modRec _ i (f := fun x => { x with metaVersion := version })
      (fun _ => by rfl) fun _ => by rfl)
    dsimp only
    split
    next => exact hv.trans (edits_refuse _ i)
    next =>
      exact (hv.trans (edits_modRec _ i (f := fun x => { x with want := .loan }) (fun _ => by rfl)
        fun _ => by rfl)).trans (edits_rest rfl rfl rfl rfl)
  next st' s heq =>
    rw [heq] at h
    have hstore := (minor_slotStore st' env s blob).edits
    split
    next heq' =>
      rw [heq'] at hstore
      have hslot := (h.trans hstore).trans
        (Edit.modSlot _ s (fun slot => { slot with holder := none }) fun _ => by rfl).edits
      exact (hslot.trans (Edit.modRec _ i (fun x => { x with slot := none })
        fun _ => ⟨by rfl, Or.inr (by rfl)⟩).edits).trans (edits_rest rfl rfl rfl rfl)
    next heq' =>
      rw [heq'] at hstore
      exact (h.trans hstore).trans (edits_kept _ i s v version flags true)

/-- The admit hook's word, then the seat it gives or takes. -/
theorem edits_judge (st : Core) (env : Env) (i : Nat) (blob : Bytes) (version flags : Nat) :
    Edits st (st.judge env i blob version flags).1 := by
  unfold Core.judge
  split
  next => exact Edits.refl st
  next x _ =>
    dsimp only
    split
    next => exact Edits.refl st
    have hfit := (minor_refetchDone st i).edits.trans
      (edits_modRec _ i (f := fun x => { x with tooBig := false }) (fun _ => by rfl) fun _ => by rfl)
    have hv := hfit.trans (edits_verdict _ env i blob version)
    rcases hverdict : ((st.refetchDone i).modRec i fun x => { x with tooBig := false }).verdict
      env i blob version with ⟨st', v⟩
    rw [hverdict] at hv
    dsimp only
    split
    next =>
      have hno := hv.trans (edits_modRec _ i
        (f := fun x => { x with metaVersion := version, want := .no }) (fun _ => by rfl) fun _ => by rfl)
      split
      next => exact (hno.trans (edits_giveBack _ i)).trans (edits_rest rfl rfl rfl rfl)
      next => exact hno
    next =>
      split
      next =>
        split
        next => exact hv.trans (edits_modRec _ i (fun _ => by rfl) fun _ => by rfl)
        next => exact hv.trans (edits_judgeSeat _ env i blob v version flags)
      next s _ =>
        have hstore := (minor_slotStore st' env s blob).edits
        split
        next heq' =>
          rw [heq'] at hstore
          exact hv.trans hstore
        next heq' =>
          rw [heq'] at hstore
          exact (hv.trans hstore).trans (edits_kept _ i s v version flags _)

theorem edits_rejudgeAt (st : Core) (env : Env) (i : Nat) : Edits st (st.rejudgeAt env i).1 := by
  unfold Core.rejudgeAt
  split
  next => exact Edits.refl st
  next x _ =>
    split
    next => exact Edits.refl st
    next s _ =>
      have h := edits_verdict st env i (((st.slots[s]?).map Slot.blob).getD []) x.metaVersion
      split
      next heq =>
        rw [heq] at h
        exact (h.trans (edits_giveBack _ i)).trans (edits_rest rfl rfl rfl rfl)
      next heq =>
        rw [heq] at h
        split
        next =>
          exact (h.trans (Edit.modSlot _ s (fun slot => { slot with loan := false })
            fun _ => by rfl).edits).trans (edits_ask _ i rfl _)
        next => exact h

/-! ## A datagram -/

/-- A write of no record writes nothing. -/
theorem modRec_none {i : Nat} (h : st.recAt i = none) (f : Rec → Rec) : st.modRec i f = st := by
  have hrecs : st.records.recs.modify i (Option.map f) = st.records.recs := by
    refine List.ext_getElem? fun j => ?_
    rw [List.getElem?_modify]
    by_cases hij : i = j
    · subst hij
      have hget : st.records.recs[i]?.join = none := h
      cases hi : st.records.recs[i]? with
      | none => simp
      | some y =>
        rw [hi] at hget
        cases y with
        | none => simp
        | some x => cases hget
    · simp [hij]
  unfold Core.modRec Records.modify
  rw [hrecs]

/-- The slot of the record heard, `hearUp` but for its hook. -/
def Core.heardAt (st : Core) (i : Nat) (src : Option Addr) (now : Nat) : Core :=
  match st.recAt i with
  | none => st
  | some x =>
    match x.slot with
    | none => st
    | some s => st.heardFrom s x src now

theorem edits_hearUp (st : Core) (i : Nat) (src : Option Addr) (addr : Addr) (up : Bool)
    (now : Nat) : Edits (st.heardAt i src now) (st.hearUp i src addr up now) := by
  unfold Core.hearUp Core.heardAt
  cases st.recAt i with
  | none => exact Edits.refl st
  | some x =>
    dsimp only
    cases x.slot with
    | none => exact Edits.refl st
    | some s => exact edits_ite (edits_note _ _) (Edits.refl _)

/-- Its hook writes no record. -/
theorem records_hearUp (st : Core) (i : Nat) (src : Option Addr) (addr : Addr) (up : Bool)
    (now : Nat) : (st.hearUp i src addr up now).records = (st.heardAt i src now).records := by
  unfold Core.hearUp Core.heardAt
  cases st.recAt i with
  | none => rfl
  | some x =>
    dsimp only
    cases x.slot with
    | none => rfl
    | some s =>
      dsimp only
      split
      next => rfl
      next => rfl

theorem edits_hearFull (st : Core) (i flags : Nat) (haveBlob : Bool) (now : Nat) :
    Edits st (st.hearFull i flags haveBlob now) := by
  unfold Core.hearFull
  split
  next => exact Edits.refl st
  next x _ =>
    split
    next =>
      have h := (edits_settle st i oweMatch).trans (edits_modRec _ i (f := fun x =>
        { x with full := true, reask := !hasFlag flags flagOne, askMissed := false, want := .no })
        (fun _ => by rfl) fun _ => by rfl)
      dsimp only
      split
      next => exact (h.trans (edits_giveBack _ i)).trans (edits_rest rfl rfl rfl rfl)
      next => exact h
    next =>
      split
      next =>
        split
        next => exact edits_modRec st i (fun _ => by rfl) fun _ => by rfl
        split
        next => exact (edits_ask st i rfl now).trans (Edit.once _ i).edits
        next => exact Edits.refl st
      next => exact Edits.refl st

/-- The record heard, before its locator is written. -/
def Core.heardRec (st : Core) (i : Nat) (w : Wire) (haveBlob : Bool) (now : Nat) : Core :=
  let st := st.takeName i w.name
  let st := { st with records := st.records.setState i .active }
  let st := st.modRec i fun x =>
    { x with lastHeard := now, uni := if hasFlag w.flags flagUni then now else x.uni }
  (st.hearOne i w.flags).hearFull i w.flags haveBlob now

/-- A record that is heard is written, given its locator and written again. -/
theorem edits_hearRecord (st : Core) (i : Nat) (w : Wire) (addr : Addr) (haveBlob first : Bool)
    (now : Nat) : ∃ st₁ x, Edits st st₁ ∧
      (st.recAt i ≠ none → st₁ = st.heardRec i w haveBlob now) ∧ Edits (st₁.modRec i fun y =>
          { y with addr := st₁.rankedAddr ((st₁.recAt i).getD x) addr now })
        (st.hearRecord i w addr haveBlob first now).1 := by
  unfold Core.hearRecord
  split
  next hnone =>
    have hnone' : st.recAt i = none := by
      have h : ((st.recAt i).map fun x => { x with name := w.name.take nodeNameMax }) = none := by
        have hmod := Core.recAt_modRec st i (fun x => { x with name := w.name.take nodeNameMax }) i
        rw [if_pos rfl] at hmod
        exact hmod.symm.trans hnone
      exact Option.map_eq_none_iff.mp h
    refine ⟨st, { uuid := [], localId := 0 }, Edits.refl st, fun hsome => absurd hnone' hsome, ?_⟩
    rw [modRec_none hnone']
    exact Edits.refl st
  next x _ =>
    have hname : Edits st (st.takeName i w.name) := edits_modRec st i (fun _ => by rfl) fun _ => by rfl
    have hstate := hname.trans (Edit.setState _ i .active).edits
    have htime := hstate.trans (edits_modRec _ i (f := fun x =>
      { x with lastHeard := now, uni := if hasFlag w.flags flagUni then now else x.uni })
      (fun _ => by rfl) fun _ => by rfl)
    have hheard := (htime.trans (minor_hearOne _ i w.flags).edits).trans
      (edits_hearFull _ i w.flags haveBlob now)
    exact ⟨st.heardRec i w haveBlob now, x, hheard, fun _ => rfl,
      edits_ite (edits_note _ _) (Edits.refl _)⟩

theorem edits_advertise (st : Core) (i version : Nat) : Edits st (st.advertise i version) := by
  refine edits_modRec st i (fun x => ?_) fun x => ?_
  · split <;> rfl
  · split <;> rfl

/-- An overlay is judged, assumed judged or fetched. -/
theorem edits_hearBlob (st : Core) (env : Env) (i : Nat) (w : Wire) (haveBlob tooBig first : Bool)
    (now : Nat) : Edits st (st.hearBlob env i w haveBlob tooBig first now).1 := by
  unfold Core.hearBlob
  split
  next => exact edits_judge st env i _ _ _
  split
  next => exact Edits.refl st
  next x _ =>
    split
    next =>
      split
      next =>
        have h := edits_seat st i .yes
        split
        next heq =>
          rw [heq] at h
          exact h
        next heq =>
          rw [heq] at h
          exact h.trans (edits_refuse _ i)
      next => exact Edits.refl st
    next =>
      split
      next => exact edits_modRec st i (fun _ => by rfl) fun _ => by rfl
      split
      next =>
        split
        next => exact (minor_offer st i now).edits
        split
        next => exact edits_refuse st i
        next => exact Edits.refl st
      next => exact Edits.refl st

/-- A datagram of a record: its locator is written, then the path its source is. What follows
takes no record its slot. -/
theorem edits_hear (st : Core) (env : Env) (i : Nat) (w : Wire) (src : Option Addr) (addr : Addr)
    (haveBlob : Bool) (tooBig : Nat) (first : Bool) (now : Nat) : ∃ st₁ x st₂, Edits st st₁ ∧
      (st.recAt i ≠ none → st₁ = st.heardRec i w haveBlob now) ∧ Edits (st₁.modRec i fun y =>
          { y with addr := st₁.rankedAddr ((st₁.recAt i).getD x) addr now }) st₂ ∧
        Edits (st₂.heardAt i src now) (st.hear env i w src addr haveBlob tooBig first now) ∧
          ∀ j y, (st₂.heardAt i src now).recAt j = some y →
            ∃ y', (st.hear env i w src addr haveBlob tooBig first now).recAt j = some y' ∧
              y'.slot = y.slot := by
  obtain ⟨st₁, x, hbefore, hname, hrecord⟩ := edits_hearRecord st i w addr haveBlob first now
  unfold Core.hear
  rcases hheard : st.hearRecord i w addr haveBlob first now with ⟨st', addr', upOwed⟩
  rw [hheard] at hrecord
  have hadv := hrecord.trans (edits_advertise st' i w.version)
  have hbig : Edits (st'.advertise i w.version) (if tooBig ≠ 0 then
      (st'.advertise i w.version).tooBig i addr' tooBig else st'.advertise i w.version) :=
    edits_ite (minor_tooBig _ i addr' tooBig).edits (Edits.refl _)
  dsimp only
  generalize (if tooBig ≠ 0 then _ else st'.advertise i w.version) = st₂ at hbig ⊢
  have hblob := (hadv.trans hbig).trans
    (edits_hearBlob st₂ env i w haveBlob (tooBig ≠ 0) first now)
  rcases hb : st₂.hearBlob env i w haveBlob (tooBig ≠ 0) first now with ⟨st'', up⟩
  rw [hb] at hblob
  refine ⟨st₁, x, _, hbefore, hname, (hblob.trans (minor_fetchCheck st'' i now).edits).trans
    (minor_oweHeard _ i w now).edits, (edits_hearUp _ i src addr' _ now).trans (minor_offerOpened _ now).edits,
    fun j y hy => ?_⟩
  have hy' : (Core.hearUp ((st''.fetchCheck i now).oweHeard i w now) i src addr' (up || upOwed)
      now).recAt j = some y := by
    unfold Core.recAt at hy ⊢
    rw [records_hearUp]
    exact hy
  obtain ⟨y', hy'', hcore⟩ := (minor_offerOpened _ now).quiet.fwd hy'
  exact ⟨y', hy'', place_slot (core_place hcore)⟩

/-- Its record is made of what the eviction leaves. -/
theorem edits_evicted (st : Core) (env : Env) (w : Wire) (addr : Addr) (haveBlob : Bool) :
    Edits (st.evictEndpoint addr) (st.meetStranger env w addr haveBlob).1 := by
  have h := edits_recordTake (st.evictEndpoint addr) env w.uuid
  unfold Core.meetStranger
  split
  next heq =>
    rw [heq] at h
    exact h
  next st' heq =>
    rw [heq] at h
    have hv := (minor_strangerVerdict st' env w haveBlob).edits
    rcases hverdict : st'.strangerVerdict env w haveBlob with ⟨st'', v⟩
    rw [hverdict] at hv
    dsimp only
    split
    next => exact (h.trans hv).trans (edits_recordEvict st'' env w.uuid (v = .yes))
    next => exact h.trans hv

theorem edits_meetStranger (st : Core) (env : Env) (w : Wire) (addr : Addr) (haveBlob : Bool) :
    Edits st (st.meetStranger env w addr haveBlob).1 :=
  (edits_evictEndpoint st addr).trans (edits_evicted st env w addr haveBlob)

/-! ## The clock and the local calls -/

theorem edits_sweepAt (now : Nat) (st : Core) (i : Nat) : Edits st (Core.sweepAt now st i) := by
  unfold Core.sweepAt
  split
  next => exact Edits.refl st
  next x _ =>
    split
    next => exact edits_ite (edits_peerGone st i) (Edits.refl st)
    split
    next =>
      have h := (((Edit.setState st i .dropped).edits.trans (edits_settle _ i oweAll)).trans
        (minor_refetchDone _ i).edits).trans (edits_note _ (.seen x.localId x.addr false))
      exact edits_ite ((h.trans (edits_note _ (.down x.localId .drop))).trans
        (edits_rest rfl rfl rfl rfl)) h
    next => exact Edits.refl st

theorem edits_tick (st : Core) (now : Nat) : Edits st (st.tick now) := by
  unfold Core.tick
  refine Edits.trans (edits_ite ?_ (Edits.refl st)) (minor_offerOpened _ now).edits
  have hnext : Edits st { st with nextSweep := now + Nat.max (st.cfg.interval / sweepsPerInterval) 1 } :=
    edits_rest rfl rfl rfl rfl
  exact hnext.trans (edits_foldl (edits_sweepAt now) _ _)

theorem edits_update (st : Core) (now cap : Nat) : Edits st (st.update now cap).1 := by
  have hclock : Edits st { st with now := now } := edits_rest rfl rfl rfl rfl
  unfold Core.update
  dsimp only
  split
  next => exact edits_rest rfl rfl rfl rfl
  have h := hclock.trans (edits_tick _ now)
  split
  next => exact h.trans (edits_rest rfl rfl rfl rfl)
  split
  next => exact h.trans (edits_rest rfl rfl rfl rfl)
  split
  next => exact h.trans (edits_rest rfl rfl rfl rfl)
  next => exact h

/-- The record a targeted poll sends to is the first due. -/
theorem edits_pollTargeted (st : Core) (now cap : Nat) : Edits st (st.pollTargeted now cap).1 := by
  have hclock : Edits st { st with now := now } := edits_rest rfl rfl rfl rfl
  unfold Core.pollTargeted
  dsimp only
  split
  next => exact hclock
  split
  next => exact edits_rest rfl rfl rfl rfl
  split
  next => exact hclock
  next i hfind =>
    split
    next => exact hclock
    next x hr =>
      refine (hclock.trans (edits_settle _ i oweReply)).trans (Edit.askSent _ i now ?_).edits
      intro y hy
      have hdue := List.find?_some hfind
      rw [hr, Option.any_some, decide_eq_true_iff] at hdue
      rw [Core.recAt_settle hr, Option.some_inj] at hy
      rw [← hy]
      exact hdue

theorem edits_replayAt (env : Env) (st : Core) (s : Nat) : Edits st (Core.replayAt env st s) := by
  unfold Core.replayAt
  split
  next => exact Edits.refl st
  next i _ =>
    split
    next => exact Edits.refl st
    have h := edits_rejudgeAt st env i
    split
    next => exact Edits.refl st
    split
    next heq =>
      rw [heq] at h
      exact h
    next heq =>
      rw [heq] at h
      exact h.trans (edits_note _ _)

theorem edits_rejudge (st : Core) (env : Env) (id : Nat) : Edits st (st.rejudge env id) := by
  unfold Core.rejudge
  split
  next => exact (minor_offerOpened st _).edits
  next i _ => exact (edits_rejudgeAt st env i).trans (minor_offerOpened _ _).edits

/-- Every event but a datagram is a chain of writes. -/
theorem edits_step (st : Core) (e : Event) (he : ∀ env src d now, e ≠ .datagram env src d now) :
    Edits st (st.step e).1 := by
  cases e with
  | datagram env src d now => exact absurd rfl (he env src d now)
  | update now cap => exact edits_update st now cap
  | pollTargeted now cap =>
    rw [step_pollTargeted]
    exact edits_pollTargeted st now cap
  | setMeta blob now =>
    show Edits st (st.setMeta blob now)
    unfold Core.setMeta
    exact edits_ite (Edits.refl st) (edits_rest rfl rfl rfl rfl)
  | setLocalSubnets nets => exact edits_rest rfl rfl rfl rfl
  | solicit => exact edits_rest rfl rfl rfl rfl
  | replayPeers env =>
    exact (edits_foldl (edits_replayAt env) (List.range st.slots.length) st).trans
      (minor_offerOpened _ _).edits
  | rejudge env id => exact edits_rejudge st env id
  | refetchUnmatched check => exact (minor_foldl (minor_refetchAt check) _ st).edits
  | migrate maxPeers metaCap hlt => exact (minor_migrate st maxPeers metaCap hlt).edits
  | leave cap => exact Edits.refl st

end Rant.Discovery
