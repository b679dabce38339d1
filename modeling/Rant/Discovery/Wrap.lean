import Rant.Discovery.Hooks
/-!
# Ids that start over

A peer that announces itself and says BYE takes an id each time, so a core that lives long
enough gives the first id again. `Bare` is the core between two such visits: it knows nobody.

The visit is followed event by event through the handlers, each of which does nothing more to a core
that knows nobody (`arrives`, `leaves`). So after `n` visits the next id is `n + 1` modulo 2^32, and
two ids that the hooks were told of are one.
-/

namespace Rant.Discovery

open Rant.Lib
open Rant.Transport (Bytes)

variable {st : Core} {i : Nat} {r : Rec}

/-! ## What a plain announce leaves as it is -/

theorem setState_same (hr : st.recAt i = some r) :
    { st with records := st.records.setState i r.state } = st := by
  have h : st.records.setState i r.state = st.records := by
    unfold Records.setState
    rw [show st.records.get i = some r from hr]
    exact if_pos rfl
  rw [h]

theorem hearOne_plain (st : Core) (i : Nat) : st.hearOne i 0 = st := if_neg (by decide)

theorem hearFull_plain (hr : st.recAt i = some r) (hfull : r.full = false) (haveBlob : Bool) (now : Nat) :
    st.hearFull i 0 haveBlob now = st := by
  unfold Core.hearFull
  rw [hr]
  dsimp only
  rw [if_neg (by decide), hfull]
  exact if_neg Bool.false_ne_true

theorem modRec_modRec (st : Core) (i : Nat) (f g : Rec → Rec) :
    (st.modRec i f).modRec i g = st.modRec i fun q => g (f q) := by
  unfold Core.modRec Records.modify
  dsimp only
  congr 2
  refine List.ext_getElem? fun j => ?_
  simp only [List.getElem?_modify]
  by_cases hj : i = j
  · simp [hj, Option.map_map, Function.comp_def]
  · simp [hj]

/-- A plain announce of a fresh record leaves notes in it and tells that it is seen. -/
theorem hearRecord_fresh {u : Bytes} {id : Nat} (hr : st.recAt i = some { uuid := u, localId := id })
    {w : Wire} (hflags : w.flags = 0) (addr : Addr) (now : Nat) :
    ∃ f addr' up, (∀ q, (f q).core = q.core ∧ (f q).owed = q.owed ∧ (f q).refetch = q.refetch) ∧
      st.hearRecord i w addr false true now = ((st.modRec i f).note (.seen id addr' true), addr', up) := by
  have hname : (st.takeName i w.name).recAt i =
      some { uuid := u, localId := id, name := w.name.take nodeNameMax } :=
    Core.recAt_modRec_self hr _
  unfold Core.hearRecord
  rw [hname]
  dsimp only
  rw [setState_same hname, hflags, hearOne_plain]
  obtain ⟨g, hg⟩ : ∃ g : Rec → Rec, g = fun x =>
    { x with lastHeard := now, uni := if hasFlag 0 flagUni then now else x.uni } := ⟨_, rfl⟩
  rw [← hg]
  have hheard : ((st.takeName i w.name).modRec i g).recAt i =
      some (g { uuid := u, localId := id, name := w.name.take nodeNameMax }) :=
    Core.recAt_modRec_self hname g
  rw [hearFull_plain hheard (by rw [hg]), Bool.true_or, if_pos rfl]
  unfold Core.takeName
  rw [modRec_modRec, modRec_modRec]
  refine ⟨_, _, _, fun q => ?_, rfl⟩
  rw [hg]
  exact ⟨rfl, rfl, rfl⟩

theorem fetchCheck_plain (hr : st.recAt i = some r) (hwant : r.wantsBlob = false)
    (howed : r.owed = {}) (now : Nat) : st.fetchCheck i now = st := by
  have hsettle : st.records.settle i oweFetch = st.records := by
    unfold Records.settle
    rw [show st.records.get i = some r from hr]
    dsimp only
    rw [howed]
    exact if_pos rfl
  unfold Core.fetchCheck
  rw [hr]
  dsimp only
  rw [hwant, Bool.not_false, if_pos rfl]
  unfold Core.settle
  rw [hsettle]

theorem hearBlob_plain (hr : st.recAt i = some r) (hwait : r.waiting = false)
    (hadmits : st.cfg.admits = true) (env : Env) {w : Wire} (hversion : w.version = 0)
    (tooBig first : Bool) (now : Nat) :
    st.hearBlob env i w false tooBig first now = (st, false) := by
  unfold Core.hearBlob
  rw [if_neg Bool.false_ne_true, hr]
  dsimp only
  rw [hadmits, Bool.not_true, if_neg Bool.false_ne_true, hversion, hwait]
  rw [show decide ((0 : Nat) ≠ 0) = false from rfl, Bool.and_false, Bool.false_and,
    if_neg Bool.false_ne_true, Bool.false_and, if_neg Bool.false_ne_true]

theorem oweHeard_plain (st : Core) (i : Nat) {w : Wire} (hflags : w.flags = 0) (now : Nat) :
    st.oweHeard i w now = st := by
  unfold Core.oweHeard
  rw [hflags]
  split
  next => rfl
  next =>
    rw [if_neg (by decide), show hasFlag 0 flagOne = false from rfl, Bool.false_and]
    exact if_neg Bool.false_ne_true

theorem hearUp_plain (hr : st.recAt i = some r) (hslot : r.slot = none) (src : Option Addr)
    (addr : Addr) (up : Bool) (now : Nat) : st.hearUp i src addr up now = st := by
  unfold Core.hearUp
  rw [hr]
  dsimp only
  rw [hslot]

/-- The rest of the datagram adds nothing. -/
theorem hear_fresh {u : Bytes} {id : Nat} (hr : st.recAt i = some { uuid := u, localId := id })
    (hadmits : st.cfg.admits = true) (hshut : st.slotsOpened = false) (env : Env) {w : Wire}
    (hflags : w.flags = 0) (hversion : w.version = 0) (src : Option Addr) (addr : Addr) (now : Nat) :
    ∃ f addr', (∀ q, (f q).place = q.place) ∧
      st.hear env i w src addr false 0 true now = (st.modRec i f).note (.seen id addr' true) := by
  obtain ⟨f, addr', up, hf, hrec⟩ := hearRecord_fresh hr hflags addr now
  have hcore : (f { uuid := u, localId := id }).core = _ := (hf _).1
  have hr' : ((st.modRec i f).note (.seen id addr' true)).recAt i = some (f { uuid := u, localId := id }) :=
    Core.recAt_modRec_self hr f
  obtain ⟨st', hst'⟩ : ∃ st', st' = (st.modRec i f).note (.seen id addr' true) := ⟨_, rfl⟩
  rw [← hst'] at hrec hr'
  have hadv : st'.advertise i 0 = st' := by
    have hsame : (fun x : Rec => if 0 > x.advVersion then { x with advVersion := 0, tooBig := false } else x) =
        fun x => x := funext fun x => if_neg (Nat.not_lt_zero x.advVersion)
    unfold Core.advertise Core.modRec Records.modify
    rw [hsame, Option.map_id_fun']
    exact congrArg (fun recs => { st' with records := { st'.records with recs := recs } })
      (List.modify_id i st'.records.recs)
  have hshut' : st'.slotsOpened = false := by rw [hst']; exact hshut
  have hadmits' : st'.cfg.admits = true := by rw [hst']; exact hadmits
  have hplace := core_place hcore
  have hwait : (f { uuid := u, localId := id }).waiting = false := by
    unfold Rec.waiting
    rw [core_want hcore]
    exact Bool.and_false _
  have hwant : (f { uuid := u, localId := id }).wantsBlob = false := by
    unfold Rec.wantsBlob
    rw [core_metaVersion hcore, core_advVersion hcore, (hf _).2.2]
    rfl
  refine ⟨f, addr', fun q => core_place (hf q).1, ?_⟩
  unfold Core.hear
  rw [hrec, hversion]
  dsimp only
  rw [hadv, if_neg (fun h => h rfl), hearBlob_plain hr' hwait hadmits' env hversion]
  dsimp only
  rw [fetchCheck_plain hr' hwant (hf _).2.1, oweHeard_plain _ _ hflags,
    hearUp_plain hr' (place_slot hplace), ← hst']
  unfold Core.offerOpened
  rw [hshut', if_neg Bool.false_ne_true]

/-! ## A visit -/

/-- A node with a hook to judge its peers. -/
def judging : Config := { lone 1 with admits := true }

/-- The datagram of a peer that says no more than who it is. -/
def visitor (flags : Nat) : Wire := { flags := flags, uuid := List.replicate 16 2 }

theorem visitor_fits {flags : Nat} (h : flags < 256) : (visitor flags).Fits :=
  ⟨h, Nat.two_pow_pos 16, List.length_replicate, Nat.two_pow_pos 32, Nat.two_pow_pos 32,
    Nat.two_pow_pos 16, Nat.zero_le _, Nat.zero_le _⟩

/-- It announces itself. -/
def arrives (now : Nat) : Event :=
  .datagram {} (some ⟨[10, 0, 0, 2], 7⟩) (encodeBytes (visitor 0)) now

/-- It says BYE. -/
def leaves (now : Nat) : Event :=
  .datagram {} (some ⟨[10, 0, 0, 2], 7⟩) (encodeBytes (visitor flagBye)) now

/-- What `onDatagram` makes of the visitor's datagram. -/
theorem onDatagram_visitor (hcfg : st.cfg = judging) {flags : Nat} (hflags : flags = 0 ∨ flags = flagBye)
    (now : Nat) : ∃ w : Wire, w.flags = flags ∧ w.version = 0 ∧ w.uuid = List.replicate 16 2 ∧
      st.onDatagram {} (some ⟨[10, 0, 0, 2], 7⟩) (encodeBytes (visitor flags)) now =
        Core.arrive { st with now := now } {} w (some ⟨[10, 0, 0, 2], 7⟩) false 0 now := by
  refine ⟨{ visitor flags with overlay := [], overlayLen := 0, wire := wireVersion }, rfl, rfl, rfl, ?_⟩
  unfold Core.onDatagram
  dsimp only
  rcases hflags with rfl | rfl
  · have hfits : (visitor 0).Fits := visitor_fits (by decide)
    rw [decode_encode hfits, hcfg]
    rfl
  · have hfits : (visitor flagBye).Fits := visitor_fits (by decide)
    rw [decode_encode hfits, hcfg]
    rfl

/-- A core with room that knows nobody, whose visitors left before the clock reading. -/
structure Bare (now : Nat) (st : Core) : Prop where
  wf : st.records.WF
  room : 0 < st.records.cap
  nobody : ∀ i, st.recAt i = none
  cfg : st.cfg = judging
  shut : st.slotsOpened = false
  left : ∀ l ∈ st.left, l.2 < now

/-- A core that knows the visitor alone. -/
structure Visited (now id : Nat) (st : Core) : Prop where
  wf : st.records.WF
  alone : ∃ i r, st.recAt i = some r ∧ r.uuid = List.replicate 16 2 ∧ r.localId = id ∧
    r.state = .active ∧ r.slot = none ∧ ∀ j, j ≠ i → st.recAt j = none
  cfg : st.cfg = judging
  shut : st.slotsOpened = false
  left : ∀ l ∈ st.left, l.2 < now

theorem evictEndpoint_bare (h : ∀ i, st.recAt i = none) (addr : Addr) : st.evictEndpoint addr = st := by
  unfold Core.evictEndpoint
  split
  next => rfl
  generalize List.range st.records.cap = is
  induction is with
  | nil => rfl
  | cons i is ih =>
    rw [List.foldl_cons, h i]
    exact ih

/-- A place is free where nobody is known. -/
theorem addRecord_bare (hwf : st.records.WF) (hroom : 0 < st.records.cap)
    (hnobody : ∀ i, st.recAt i = none) (env : Env) (uuid : Bytes) : ∃ i free,
      st.records.free = i :: free ∧ st.addRecord env uuid =
        (Core.note { st with records := st.records.addAt i free uuid } (.added st.records.takenId uuid),
          some i) := by
  have hfree : 0 ∈ st.records.free := (hwf.memFree 0).mpr ⟨hroom, hnobody 0⟩
  cases hf : st.records.free with
  | nil =>
    rw [hf] at hfree
    cases hfree
  | cons i free =>
    refine ⟨i, free, rfl, ?_⟩
    have hadd : st.records.add env.mem uuid = (st.records.addAt i free uuid, some i) := by
      unfold Records.add
      rw [if_neg (by rw [hf]; exact List.cons_ne_nil i free)]
      dsimp only
      rw [hf]
    unfold Core.addRecord
    rw [hadd]

/-- A stranger met by a store of nobody takes the first free place. -/
theorem meetStranger_bare (hwf : st.records.WF) (hroom : 0 < st.records.cap)
    (hnobody : ∀ i, st.recAt i = none) (env : Env) (w : Wire) (addr : Addr) (haveBlob : Bool) :
    ∃ i free, st.records.free = i :: free ∧ st.meetStranger env w addr haveBlob =
      (Core.note { st with records := st.records.addAt i free w.uuid }
        (.added st.records.takenId w.uuid), some i, .no) := by
  obtain ⟨i, free, hfree, hadd⟩ := addRecord_bare hwf hroom hnobody env w.uuid
  refine ⟨i, free, hfree, ?_⟩
  unfold Core.meetStranger Core.recordTake
  rw [evictEndpoint_bare hnobody, hadd]

/-- Every visitor left before the clock reading, so none is taken for one that just left. -/
theorem leftLately_bare {now : Nat} (hcfg : st.cfg = judging) (hleft : ∀ l ∈ st.left, l.2 < now)
    (hlt : now < 2 ^ 64) (uuid : Bytes) : st.leftLately uuid now = false := by
  unfold Core.leftLately
  rw [List.any_eq_false]
  intro l hl
  have hbefore := hleft l hl
  have hlong : decide (since now l.2 < st.cfg.interval) = false := by
    rw [decide_eq_false_iff_not, hcfg, show judging.interval = 1 from rfl]
    unfold since
    omega
  rw [hlong, Bool.and_false, Bool.false_and]
  exact Bool.false_ne_true

/-- The visitor comes and takes the next id. -/
theorem Bare.arrives {now : Nat} (h : Bare now st) (hlt : now < 2 ^ 64) :
    Visited now st.records.takenId (st.step (arrives now)).1 ∧
      (st.step (arrives now)).1.records.nextId = (st.records.takenId + 1) % 2 ^ 32 ∧
      ∃ addr, (st.step (arrives now)).1.trace = st.trace ++
        [.added st.records.takenId (List.replicate 16 2), .seen st.records.takenId addr true] := by
  obtain ⟨w, hflags, hversion, huuid, hw⟩ := onDatagram_visitor h.cfg (Or.inl rfl) now
  obtain ⟨st₀, hst₀⟩ : ∃ st₀ : Core, st₀ = { st with now := now } := ⟨_, rfl⟩
  rw [← hst₀] at hw
  have hwf : st₀.records.WF := by rw [hst₀]; exact h.wf
  have hroom : 0 < st₀.records.cap := by rw [hst₀]; exact h.room
  have hnobody : ∀ i, st₀.recAt i = none := by rw [hst₀]; exact h.nobody
  have hcfg : st₀.cfg = judging := by rw [hst₀]; exact h.cfg
  have hshut : st₀.slotsOpened = false := by rw [hst₀]; exact h.shut
  have hleft : ∀ l ∈ st₀.left, l.2 < now := by rw [hst₀]; exact h.left
  have hid : st.records.takenId = st₀.records.takenId := by rw [hst₀]
  have htrace : st.trace = st₀.trace := by rw [hst₀]
  have hstep : (st.step (Discovery.arrives now)).1 = st.onDatagram {} (some ⟨[10, 0, 0, 2], 7⟩)
      (encodeBytes (visitor 0)) now := rfl
  -- nobody is known, so the visitor is a stranger
  have hfind : st₀.records.find w.uuid = none := by
    cases hf : st₀.records.find w.uuid with
    | none => rfl
    | some i =>
      obtain ⟨r, hr, -⟩ := Records.find_some hf
      have hr' : st₀.recAt i = some r := hr
      rw [hnobody] at hr'
      cases hr'
  obtain ⟨i, free, hfree, hmeet⟩ := meetStranger_bare hwf hroom hnobody {} w ⟨[10, 0, 0, 2], w.dataPort⟩ false
  have habsent : ∀ j x, st₀.records.get j = some x → x.uuid ≠ w.uuid := by
    intro j x hx
    rw [show st₀.records.get j = none from hnobody j] at hx
    cases hx
  obtain ⟨hnone, hwf₁, hget⟩ := hwf.addAt hfree habsent
  obtain ⟨st₁, hst₁⟩ : ∃ st₁, st₁ = Core.note { st₀ with records := st₀.records.addAt i free w.uuid }
    (.added st₀.records.takenId w.uuid) := ⟨_, rfl⟩
  rw [← hst₁] at hmeet
  have hr₁ : st₁.recAt i = some { uuid := w.uuid, localId := st₀.records.takenId } := by
    rw [hst₁]
    exact (hget i).trans (if_pos rfl)
  obtain ⟨f, addr', hf, hhear⟩ := hear_fresh hr₁ (by rw [hst₁]; exact congrArg Config.admits hcfg)
    (by rw [hst₁]; exact hshut) {} hflags hversion (some ⟨[10, 0, 0, 2], 7⟩)
    ⟨[10, 0, 0, 2], w.dataPort⟩ now
  -- the datagram adds a record and tells the two hooks
  have hend : (st.step (Discovery.arrives now)).1 = (st₁.modRec i f).note (.seen st₀.records.takenId addr' true) := by
    rw [hstep, hw]
    unfold Core.arrive
    dsimp only
    rw [hflags, if_neg (by decide), leftLately_bare hcfg hleft hlt, if_neg Bool.false_ne_true, hfind]
    dsimp only [Option.bind_none, Option.map_some, Option.some_or, Option.map_none]
    rw [hmeet]
    exact hhear
  have hr₂ := Core.recAt_modRec_self hr₁ f
  have hplace := hf { uuid := w.uuid, localId := st₀.records.takenId }
  rw [hend, hid, htrace]
  refine ⟨⟨?_, ⟨i, _, hr₂, (place_uuid hplace).trans huuid, place_localId hplace, place_state hplace,
    place_slot hplace, fun j hj => ?_⟩, ?_, ?_, ?_⟩, ?_, addr', ?_⟩
  · refine (same_modRec fun q _ => hf q).wf ?_
    rw [hst₁]
    exact hwf₁
  · refine (Core.recAt_modRec_ne hj f).trans ?_
    rw [hst₁]
    exact ((hget j).trans (if_neg hj)).trans (hnobody j)
  · show st₁.cfg = judging
    rw [hst₁]
    exact hcfg
  · show st₁.slotsOpened = false
    rw [hst₁]
    exact hshut
  · show ∀ l ∈ st₁.left, l.2 < now
    rw [hst₁]
    exact hleft
  · show st₁.records.nextId = _
    rw [hst₁]
    rfl
  · show st₁.trace ++ [_] = _
    rw [hst₁, huuid]
    show (st₀.trace ++ [_]) ++ [_] = _
    rw [List.append_assoc]
    rfl

theorem leftNote_left {now : Nat} (hleft : ∀ l ∈ st.left, l.2 < now + 1) (uuid : Bytes) (hnow : 0 < now) :
    ∀ l ∈ (st.leftNote uuid now).left, l.2 < now + 1 := by
  have hset : ∀ k, ∀ l ∈ st.left.set k (uuid, now), l.2 < now + 1 := by
    intro k l hl
    rcases List.mem_or_eq_of_mem_set hl with hl | hl
    · exact hleft l hl
    · rw [hl]
      exact Nat.lt_succ_self now
  unfold Core.leftNote
  dsimp only
  rw [if_neg (Nat.ne_of_gt hnow)]
  split
  next k _ => exact hset k
  next => exact hset st.leftNext

/-- What goes of a live record without a slot. -/
theorem peerGone_seatless (hr : st.recAt i = some r) (hstate : r.state = .active) (hslot : r.slot = none) :
    st.peerGone i = Core.note { st.note (.seen r.localId r.addr false) with
      records := st.records.remove i } (.removed r.localId) := by
  unfold Core.peerGone Core.goneHooks
  rw [hr]
  dsimp only
  rw [hslot, if_pos hstate]
  rfl

theorem nextId_remove (records : Records) (i : Nat) : (records.remove i).nextId = records.nextId := by
  unfold Records.remove
  split
  next => rfl
  next => exact (Records.settle_owes records i oweAll).nextId

/-- It leaves, and the store is bare again. -/
theorem Visited.leaves {now id : Nat} (h : Visited now id st) (hnow : 0 < now) :
    Bare (now + 1) (st.step (leaves now)).1 ∧
      (st.step (leaves now)).1.records.nextId = st.records.nextId ∧
      Mark.removed id ∈ (st.step (leaves now)).1.trace ∧
        ∀ m ∈ st.trace, m ∈ (st.step (leaves now)).1.trace := by
  obtain ⟨w, hflags, -, huuid, hw⟩ := onDatagram_visitor h.cfg (Or.inr rfl) now
  obtain ⟨i, r, hr, hru, hid, hstate, hslot, halone⟩ := h.alone
  obtain ⟨st₁, hst₁⟩ : ∃ st₁, st₁ = Core.leftNote { st with now := now } w.uuid now := ⟨_, rfl⟩
  have hquiet : Quiet { st with now := now } st₁ := by
    rw [hst₁]
    exact (minor_leftNote _ w.uuid now).quiet
  have hrecs : st₁.records = st.records ∧ st₁.cfg = st.cfg ∧ st₁.slotsOpened = st.slotsOpened ∧
      st₁.trace = st.trace := by
    rw [hst₁]
    unfold Core.leftNote
    dsimp only
    split <;> exact ⟨rfl, rfl, rfl, rfl⟩
  obtain ⟨hrecords, hcfg, hopened, htrace⟩ := hrecs
  have hr₁ : st₁.recAt i = some r := by
    unfold Core.recAt
    rw [hrecords]
    exact hr
  -- the goodbye names the one record there is
  have hfind : st.records.find w.uuid = some i := by
    cases hf : st.records.find w.uuid with
    | none => exact absurd (hru.trans huuid.symm) (h.wf.find_none hf i r hr)
    | some j =>
      obtain ⟨q, hq, hqu⟩ := Records.find_some hf
      exact congrArg some (h.wf.uuids j i q r hq hr (hqu.trans (huuid.trans hru.symm)))
  have hgone := peerGone_seatless hr₁ hstate hslot
  have hend : (st.step (Discovery.leaves now)).1 = st₁.peerGone i := by
    show st.onDatagram {} (some ⟨[10, 0, 0, 2], 7⟩) (encodeBytes (visitor flagBye)) now = _
    rw [hw]
    unfold Core.arrive
    dsimp only
    rw [hflags, if_pos (by decide), ← hst₁, hfind]
    dsimp only
    unfold Core.offerOpened
    rw [hgone, if_neg]
    show ¬ st₁.slotsOpened = true
    rw [hopened, h.shut]
    exact Bool.false_ne_true
  have hwf : (st₁.peerGone i).records.WF := by
    rw [records_peerGone hr₁, hrecords]
    exact h.wf.remove i
  rw [hend]
  refine ⟨⟨hwf, ?_, fun j => ?_, ?_, ?_, ?_⟩, ?_, ?_, fun m hm => ?_⟩
  · -- the place it left is free
    have hfree : i ∈ (st₁.peerGone i).records.free := by
      rw [records_peerGone hr₁, hrecords]
      unfold Records.remove
      rw [show st.records.get i = some r from hr]
      exact List.mem_cons_self
    exact Nat.lt_of_le_of_lt (Nat.zero_le i) ((hwf.memFree i).mp hfree).1
  · rw [recAt_peerGone]
    by_cases hj : j = i
    · exact if_pos hj
    rw [if_neg hj]
    unfold Core.recAt
    rw [hrecords]
    exact halone j hj
  · rw [hgone]
    exact hcfg.trans h.cfg
  · rw [hgone]
    exact hopened.trans h.shut
  · rw [hgone]
    show ∀ l ∈ st₁.left, l.2 < now + 1
    have hleft : ∀ l ∈ Core.left { st with now := now }, l.2 < now + 1 :=
      fun l hl => Nat.lt_succ_of_lt (h.left l hl)
    rw [hst₁]
    exact leftNote_left hleft w.uuid hnow
  · rw [records_peerGone hr₁, hrecords]
    exact nextId_remove st.records i
  · rw [trace_peerGone hr₁]
    refine List.mem_append_right _ ?_
    unfold goneMarks
    rw [hid]
    exact List.mem_append_right _ (List.mem_append_right _ List.mem_cons_self)
  · rw [trace_peerGone hr₁, htrace]
    exact List.mem_append_left _ hm

/-! ## Many visits -/

/-- So many visits, one at each tick of the clock. -/
def visits (n : Nat) : List Event := (List.range n).flatMap fun k => [arrives (k + 1), leaves (k + 1)]

theorem runs_visits_succ (st : Core) (n : Nat) : st.runs (visits (n + 1)) =
    (((st.runs (visits n)).step (arrives (n + 1))).1.step (leaves (n + 1))).1 := by
  unfold Core.runs visits
  rw [List.range_succ, List.flatMap_append, run_append]
  rfl

/-- The first visitor of all had id 1, and the id that comes next is the count of the visits. -/
theorem bare_visits (h : Bare 1 st) (hnext : st.records.nextId = 1) : ∀ n, n < 2 ^ 32 →
    Bare (n + 1) (st.runs (visits n)) ∧ (st.runs (visits n)).records.nextId = (n + 1) % 2 ^ 32 ∧
      (0 < n → Mark.removed 1 ∈ (st.runs (visits n)).trace) := by
  intro n
  induction n with
  | zero => exact fun _ => ⟨h, hnext, fun hc => (by cases hc)⟩
  | succ n ih =>
    intro hlt
    obtain ⟨hbare, hid, hold⟩ := ih (by omega)
    have htaken : (st.runs (visits n)).records.takenId = n + 1 := by
      unfold Records.takenId
      rw [hid, Nat.mod_eq_of_lt hlt, if_neg (Nat.succ_ne_zero n)]
    obtain ⟨hvisited, hnext', addr, htrace⟩ := hbare.arrives (by omega)
    obtain ⟨hbare', hnext'', hremoved, hkeep⟩ := hvisited.leaves (Nat.succ_pos n)
    rw [runs_visits_succ]
    refine ⟨hbare', ?_, fun _ => ?_⟩
    · rw [hnext'', hnext', htaken]
    · by_cases hn : 0 < n
      · refine hkeep _ ?_
        rw [htrace]
        exact List.mem_append_left _ (hold hn)
      · have hn0 : n = 0 := by omega
        subst hn0
        rw [htaken] at hremoved
        exact hremoved

/-- A fresh core is bare, and its first id is 1. -/
theorem init_bare (h : Core.init judging = some st) : Bare 1 st ∧ st.records.nextId = 1 := by
  have hnobody := recAt_init h
  have hwf := (init_inv h).store
  cases h
  refine ⟨⟨hwf, ?_, fun i => ?_, rfl, rfl, fun l hl => ?_⟩, rfl⟩
  · exact Nat.zero_lt_one
  · exact Option.eq_none_iff_forall_ne_some.mpr (hnobody i)
  · rw [List.eq_of_mem_replicate hl]
    exact Nat.zero_lt_one

/-- **A core that lives long enough calls a hook for an id after its record's removal**: after
`2 ^ 32 - 1` visits the next visitor has id 1 again. -/
theorem hooks_wrap : ¬ ∀ (cfg : Config) (st : Core) (es : List Event), Core.init cfg = some st →
    Hooked (st.runs es) := by
  intro hall
  obtain ⟨st, hst⟩ : ∃ st, Core.init judging = some st := ⟨_, rfl⟩
  obtain ⟨hbare, hnext⟩ := init_bare hst
  obtain ⟨n, hn⟩ : ∃ n, n + 1 = 2 ^ 32 := ⟨4294967295, by decide⟩
  obtain ⟨hb, hid, hremoved⟩ := bare_visits hbare hnext n (by omega)
  have hended := (hall judging st (visits n ++ [arrives (n + 1)]) hst).ended
  have htaken : (st.runs (visits n)).records.takenId = 1 := by
    unfold Records.takenId
    rw [hid, hn, Nat.mod_self, if_pos rfl]
  obtain ⟨-, -, addr, htrace⟩ := hb.arrives (by omega)
  have hrun : st.runs (visits n ++ [arrives (n + 1)]) =
      ((st.runs (visits n)).step (arrives (n + 1))).1 := by
    unfold Core.runs
    rw [run_append]
    rfl
  rw [hrun, htrace, htaken] at hended
  have hafter := (List.pairwise_append.mp hended).2.2 (.removed 1) (hremoved (by omega))
    (.seen 1 addr true) (List.mem_cons_of_mem _ List.mem_cons_self) 1 rfl
  exact hafter rfl

end Rant.Discovery
