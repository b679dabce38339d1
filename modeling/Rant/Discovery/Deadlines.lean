import Rant.Discovery.Hooks
/-!
# Deadlines

`i_rant_discovery_next_due_us` is what a driver sleeps until. A core `Sleeps` when nothing
is missed before it: the update and the targeted poll then change the clock alone and send
nothing. The due time counts every kind of pending work but a slot that came open, and the
only handler to leave one open is the targeted poll that lets a promised slot go.
-/

namespace Rant.Discovery

open Rant.Lib
open Rant.Transport (Bytes)

variable {st : Core}

/-! ## The due time -/

/-- A running minimum only falls. -/
theorem foldl_le {α : Type} {f : Nat → α → Nat} (hf : ∀ m a, f m a ≤ m) :
    ∀ (l : List α) (m : Nat), l.foldl f m ≤ m
  | [], m => Nat.le_refl m
  | a :: l, m => (foldl_le hf l (f m a)).trans (hf m a)

/-- A fold to the least is at most what each member offers. -/
theorem foldl_le_mem {α : Type} {f : Nat → α → Nat} (hf : ∀ m a, f m a ≤ m) {k : Nat} {b : α}
    (hb : ∀ m, f m b ≤ k) : ∀ {l : List α} (m : Nat), b ∈ l → l.foldl f m ≤ k
  | a :: l, m, hmem => by
    rcases List.mem_cons.mp hmem with rfl | hmem
    · exact (foldl_le hf l _).trans (hb m)
    · exact foldl_le_mem hf hb (f m a) hmem

namespace Core

/-- The earlier of a due time and a record's. -/
theorem dueOf_le (st : Core) (m i : Nat) :
    (if (st.recAt i).any fun x => x.due < m then ((st.recAt i).map Rec.due).getD m else m) ≤ m := by
  cases hr : st.recAt i with
  | none => exact Nat.le_refl m
  | some x =>
    by_cases hlt : x.due < m
    · rw [if_pos (by simpa using hlt)]
      exact Nat.le_of_lt hlt
    · rw [if_neg (by simpa using hlt)]

theorem dueOf_le_rec {i : Nat} {x : Rec} (hr : st.recAt i = some x) (m : Nat) :
    (if (st.recAt i).any fun x => x.due < m then ((st.recAt i).map Rec.due).getD m else m) ≤
      x.due := by
  rw [hr]
  by_cases hlt : x.due < m
  · rw [if_pos (by simpa using hlt)]
    exact Nat.le_refl x.due
  · rw [if_neg (by simpa using hlt)]
    exact Nat.le_of_not_lt hlt

theorem looseDue_le (m : Nat) (l : Loose) : (if l.due < m then l.due else m) ≤ m := by
  split
  next h => exact Nat.le_of_lt h
  next => exact Nat.le_refl m

theorem looseDue_le_due (l : Loose) (m : Nat) : (if l.due < m then l.due else m) ≤ l.due := by
  split
  next => exact Nat.le_refl l.due
  next h => exact Nat.le_of_not_lt h

/-- The due time of the clock's own work. -/
def ownDue (st : Core) : Nat :=
  let due := if st.nextAnnounce < st.nextSweep then st.nextAnnounce else st.nextSweep
  if st.openRepeats ≠ 0 && st.nextRepeat < due then st.nextRepeat else due

/-- The core is due by its next announce, -/
theorem ownDue_le_announce (st : Core) : st.ownDue ≤ st.nextAnnounce := by
  unfold ownDue
  dsimp only
  split <;> split <;> simp_all <;> omega

/-- by its next sweep, -/
theorem ownDue_le_sweep (st : Core) : st.ownDue ≤ st.nextSweep := by
  unfold ownDue
  dsimp only
  split <;> split <;> simp_all <;> omega

/-- and by its next repeat, while there are any. -/
theorem ownDue_le_repeat (h : st.openRepeats ≠ 0) : st.ownDue ≤ st.nextRepeat := by
  unfold ownDue
  dsimp only
  split <;> split <;> simp_all

/-- What is due before nothing: an open core that owes the group no solicit. -/
structure Waits (st : Core) (now : Nat) : Prop where
  started : st.started = true
  solicit : st.wantSolicit = false
  own : now < st.ownDue
  recs : ∀ i ∈ st.records.due, ∀ x, st.recAt i = some x → now < x.due
  loose : ∀ l ∈ st.loose, now < l.due

/-- Before its due time a core waits. -/
theorem waits_of_lt {now : Nat} (h : now < st.nextDue) : st.Waits now := by
  unfold nextDue at h
  cases hs : !st.started || st.wantSolicit with
  | true =>
    rw [hs, if_pos rfl] at h
    exact absurd h (Nat.not_lt_zero now)
  | false =>
    rw [hs, if_neg Bool.false_ne_true] at h
    have hown := h.trans_le ((foldl_le looseDue_le _ _).trans (foldl_le (dueOf_le st) _ _))
    rw [Bool.or_eq_false_iff, Bool.not_eq_false'] at hs
    refine ⟨hs.1, hs.2, hown, fun i hi x hx => ?_, fun l hl => ?_⟩
    · exact h.trans_le ((foldl_le looseDue_le _ _).trans
        (foldl_le_mem (dueOf_le st) (dueOf_le_rec hx) _ hi))
    · exact h.trans_le (foldl_le_mem looseDue_le (looseDue_le_due l) _ hl)

/-! ## Sleeping until then -/

/-- Before the due time the update and the targeted poll change the clock alone. -/
def Sleeps (st : Core) : Prop :=
  ∀ now cap, now < st.nextDue →
    st.update now cap = ({ st with now := now }, []) ∧
      st.pollTargeted now cap = ({ st with now := now }, none)

theorem not_shut {b : Bool} (h : b = true) : ¬ (!b) = true := by
  rw [h]
  exact Bool.false_ne_true

theorem tick_waits {now : Nat} (h : st.Waits now) :
    Core.tick { st with now := now } now = offerOpened { st with now := now } now := by
  have hsweep : ¬ now ≥ st.nextSweep := Nat.not_le.mpr (h.own.trans_le st.ownDue_le_sweep)
  unfold tick
  dsimp only
  rw [if_neg hsweep]

/-- An update then does nothing but tell the time. -/
theorem update_waits {now : Nat} (h : st.Waits now) (hshut : st.slotsOpened = false) (cap : Nat) :
    st.update now cap = ({ st with now := now }, []) := by
  have htick : Core.tick { st with now := now } now = { st with now := now } := by
    rw [tick_waits h]
    exact if_neg (by rw [hshut]; exact Bool.false_ne_true)
  have hrepeat : (decide (st.openRepeats ≠ 0) && decide (now ≥ st.nextRepeat)) = false := by
    by_cases hopen : st.openRepeats ≠ 0
    · have hlt := h.own.trans_le (ownDue_le_repeat hopen)
      rw [decide_eq_false (Nat.not_le.mpr hlt), Bool.and_false]
    · rw [decide_eq_false hopen, Bool.false_and]
  have hannounce : ¬ now ≥ st.nextAnnounce := Nat.not_le.mpr (h.own.trans_le st.ownDue_le_announce)
  unfold update
  dsimp only
  rw [if_neg (not_shut h.started), htick]
  dsimp only
  rw [if_neg (by rw [h.solicit]; exact Bool.false_ne_true), hrepeat, if_neg Bool.false_ne_true,
    if_neg hannounce]

/-- Nor does a poll. -/
theorem pollTargeted_waits {now : Nat} (h : st.Waits now) (cap : Nat) :
    st.pollTargeted now cap = ({ st with now := now }, none) := by
  have hloose : (st.loose.findIdx? fun l => l.due ≤ now) = none := by
    rw [List.findIdx?_eq_none_iff]
    intro l hl
    exact decide_eq_false (Nat.not_le.mpr (h.loose l hl))
  have hdue : (st.records.due.find? fun i =>
      (Core.recAt { st with now := now } i).any fun x => x.due ≤ now) = none := by
    rw [List.find?_eq_none]
    intro i hi hany
    obtain ⟨x, hx, hle⟩ := (Option.any_eq_true _ _).mp hany
    exact absurd (of_decide_eq_true hle) (Nat.not_le.mpr (h.recs i hi x hx))
  unfold pollTargeted
  dsimp only
  rw [if_neg (not_shut h.started), hloose]
  dsimp only
  rw [hdue]

/-! ## What leaves a slot open -/

theorem shut_ask (st : Core) (i : Nat) (bits : Owed) (now : Nat) :
    (st.ask i bits now).slotsOpened = st.slotsOpened := by
  unfold ask
  cases st.recAt i with
  | none => rfl
  | some x =>
    dsimp only
    split
    next => rfl
    next =>
      show Core.slotsOpened (if x.owed.ask = true then st else _) = _
      split <;> rfl

theorem shut_fetchCheck (st : Core) (i now : Nat) :
    (st.fetchCheck i now).slotsOpened = st.slotsOpened := by
  unfold fetchCheck
  cases st.recAt i with
  | none => rfl
  | some x =>
    dsimp only
    split
    next => rfl
    split
    next => exact shut_ask st i oweFetch now
    next => rfl

theorem shut_offer (st : Core) (i now : Nat) : (st.offer i now).slotsOpened = st.slotsOpened :=
  shut_fetchCheck ..

theorem shut_offerFrom (now : Nat) : ∀ (is : List Nat) (k : Nat) (st : Core),
    (offerFrom now is k st).slotsOpened = st.slotsOpened
  | [], k, st => by
    cases k <;> rfl
  | i :: is, 0, st => rfl
  | i :: is, k + 1, st => by
    rw [offerFrom]
    split
    next =>
      rw [shut_offerFrom now is k, shut_offer]
    next => exact shut_offerFrom now is (k + 1) st

/-- Offering closes the slots that were open. -/
theorem shut_offerSlots (st : Core) (now : Nat) : (st.offerSlots now).slotsOpened = false :=
  shut_offerFrom ..

/-- The handlers' last line leaves no slot open. -/
theorem shut_offerOpened (st : Core) (now : Nat) : (st.offerOpened now).slotsOpened = false := by
  unfold offerOpened
  split
  next => exact shut_offerSlots st now
  next h => exact Bool.not_eq_true _ ▸ h

/-- After an update no slot waits to be offered. -/
theorem shut_update (h : st.started = true) (now cap : Nat) :
    (st.update now cap).1.slotsOpened = false := by
  have htick : (Core.tick { st with now := now } now).slotsOpened = false := shut_offerOpened ..
  unfold update
  dsimp only
  rw [if_neg (not_shut h)]
  split
  next => exact htick
  split
  next => exact htick
  split
  next => exact htick
  next => exact htick

/-- A core sleeps exactly when no slot stands open, or it is due now. -/
theorem sleeps_iff (st : Core) : st.Sleeps ↔ st.slotsOpened = false ∨ st.nextDue = 0 := by
  constructor
  · intro h
    rcases Nat.eq_zero_or_pos st.nextDue with hdue | hdue
    · exact Or.inr hdue
    · have hstarted := (waits_of_lt hdue).started
      have hshut := shut_update hstarted 0 0
      rw [(h 0 0 hdue).1] at hshut
      exact Or.inl hshut
  · rintro (hshut | hdue) now cap hlt
    · exact ⟨update_waits (waits_of_lt hlt) hshut cap, pollTargeted_waits (waits_of_lt hlt) cap⟩
    · rw [hdue] at hlt
      exact absurd hlt (Nat.not_lt_zero now)

theorem shut_troubleNote (st : Core) (kind : ErrorKind) (a : Addr) (value peer : Nat) :
    (st.troubleNote kind a value peer).slotsOpened = st.slotsOpened := by
  unfold troubleNote
  split
  next => rfl
  dsimp only
  split
  next => rfl
  next => split <;> rfl

/-- A datagram offers the slots it opens. -/
theorem shut_arrive (env : Env) (w : Wire) (src : Option Addr) (haveBlob : Bool) (tooBig now : Nat) :
    (st.arrive env w src haveBlob tooBig now).slotsOpened = false ∨
      st.arrive env w src haveBlob tooBig now = st := by
  unfold arrive
  dsimp only
  split
  next => exact Or.inl (shut_offerOpened ..)
  split
  next => exact Or.inr rfl
  split
  next => exact Or.inr rfl
  next ip _ =>
    split
    next i _ => exact Or.inl (shut_offerOpened ..)
    split
    next => exact Or.inl (shut_offerOpened ..)
    next => exact Or.inl (shut_offerOpened ..)

theorem shut_onDatagram (h : st.slotsOpened = false) (env : Env) (src : Option Addr) (d : Bytes)
    (now : Nat) : (st.onDatagram env src d now).slotsOpened = false := by
  unfold onDatagram
  dsimp only
  split
  next => exact h
  split
  next =>
    unfold wireMismatch
    dsimp only
    split
    next => exact (shut_troubleNote ..).trans h
    next => exact (shut_troubleNote ..).trans h
  next =>
    split
    next => exact h
    rcases shut_arrive env (decode d).2 (sourceOf src) _ _ now with hshut | hsame
    · exact hshut
    · rw [hsame]
      exact h

theorem shut_refetchUnmatched (st : Core) (check : Option (Bytes → Bool)) :
    (st.refetchUnmatched check).slotsOpened = st.slotsOpened := by
  unfold refetchUnmatched
  refine List.foldlRecOn (motive := fun s : Core => s.slotsOpened = st.slotsOpened) _ _ rfl ?_
  intro s hs i _
  rw [← hs]
  unfold refetchAt
  cases s.recAt i with
  | none => rfl
  | some x =>
    dsimp only
    split
    next => rfl
    split
    next => rfl
    next => exact shut_offer ..

theorem shut_regrown (st : Core) (oldSlots oldMetaCap : Nat) :
    (st.regrown oldSlots oldMetaCap).slotsOpened = false := by
  unfold regrown
  generalize (if st.metaCap > oldMetaCap then _ else st) = st'
  dsimp only
  split
  next => exact shut_offerSlots ..
  next hno =>
    rw [Bool.or_eq_true, not_or] at hno
    exact Bool.not_eq_true _ ▸ hno.2

theorem shut_migrate (h : st.slotsOpened = false) (maxPeers metaCap : Nat) (hlt : metaCap < 2 ^ 16) :
    (st.migrate maxPeers metaCap hlt).slotsOpened = false := by
  unfold migrate
  split
  next => exact h
  next => exact shut_regrown ..

/-! ## Polls that let a slot go -/

/-- A targeted poll at `now` sends the last try of a fetch for a promised slot, unanswered. -/
def LetsGo (st : Core) (now : Nat) : Prop :=
  st.started = true ∧ (∀ l ∈ st.loose, now < l.due) ∧
    ∃ i x, st.records.due.find? (fun i => (st.recAt i).any fun x => x.due ≤ now) = some i ∧
      st.recAt i = some x ∧ x.owed.ask = true ∧ x.askTries ≤ 1 ∧ x.waiting = true ∧ x.refetch = true

instance (st : Core) (now : Nat) : Decidable (st.LetsGo now) :=
  decidable_of_iff (st.started = true ∧ (∀ l ∈ st.loose, now < l.due) ∧
    ∃ i ∈ st.records.due.find? (fun i => (st.recAt i).any fun x => x.due ≤ now),
      ∃ x ∈ st.recAt i, x.owed.ask = true ∧ x.askTries ≤ 1 ∧ x.waiting = true ∧ x.refetch = true)
    (and_congr_right fun _ => and_congr_right fun _ => exists_congr fun _ =>
      ⟨fun ⟨hi, x, hx, h⟩ => ⟨x, hi, hx, h⟩, fun ⟨x, hi, hx, h⟩ => ⟨hi, x, hx, h⟩⟩)

/-- An ask sent opens a slot where it was the last try of a fetch for one. -/
theorem shut_askSent {i : Nat} {x : Rec} (hr : st.recAt i = some x) (hshut : st.slotsOpened = false)
    (now : Nat) (hno : ¬ (x.owed.ask = true ∧ x.askTries ≤ 1 ∧ x.waiting = true ∧ x.refetch = true)) :
    (st.askSent i now).slotsOpened = false := by
  unfold askSent
  rw [hr]
  dsimp only
  split
  next => exact hshut
  next hask =>
    split
    next => exact hshut
    next htries =>
      split
      next hwait =>
        have hr' : (st.noteAsk (.sent i now)).recAt i = some x := hr
        have hmod : ((st.noteAsk (.sent i now)).modRec i fun x => { x with askMissed := true }).recAt i =
            some { x with askMissed := true } := recAt_modRec_self hr' _
        unfold refetchDone
        rw [recAt_settle hmod]
        dsimp only
        split
        next => exact hshut
        next hre =>
          refine absurd ⟨?_, Nat.le_of_not_lt htries, hwait, ?_⟩ hno
          · simpa using hask
          · simpa using hre
      next => exact hshut

/-- A poll that lets nobody go opens no slot. -/
theorem shut_pollTargeted (h : st.slotsOpened = false) {now : Nat} (hno : ¬ st.LetsGo now)
    (cap : Nat) : (st.pollTargeted now cap).1.slotsOpened = false := by
  unfold pollTargeted
  dsimp only
  split
  next => exact h
  next hstarted =>
    split
    next => exact h
    next hloose =>
      split
      next => exact h
      next i hfind =>
        cases hr : Core.recAt { st with now := now } i with
        | none => exact h
        | some x =>
          refine shut_askSent (recAt_settle hr oweReply) h now fun hlast => hno ?_
          refine ⟨by simpa using hstarted, fun l hl => ?_, i, x, hfind, hr, ?_, hlast.2⟩
          · have := List.findIdx?_eq_none_iff.mp hloose l hl
            exact Nat.not_le.mp (of_decide_eq_false this)
          · have := hlast.1
            revert this
            show (x.owed.clear oweReply).ask = true → x.owed.ask = true
            unfold Owed.ask Owed.clear oweReply
            simp

/-- The polls of a run let no promised slot go. -/
def Holds (st : Core) : Event → Prop
  | .pollTargeted now _ => ¬ st.LetsGo now
  | _ => True

instance (st : Core) : (e : Event) → Decidable (st.Holds e)
  | .pollTargeted now _ => inferInstanceAs (Decidable (¬ st.LetsGo now))
  | .datagram .. | .update .. | .setMeta .. | .setLocalSubnets .. | .solicit | .replayPeers ..
  | .rejudge .. | .refetchUnmatched .. | .migrate .. | .leave .. => .isTrue trivial

/-- No event that holds leaves a slot open. -/
theorem shut_step (h : st.slotsOpened = false) (e : Event) (hk : st.Holds e) :
    (st.step e).1.slotsOpened = false := by
  cases e with
  | datagram env src d now => exact shut_onDatagram h env src d now
  | update now cap =>
    cases hs : st.started with
    | true => exact shut_update hs now cap
    | false =>
      show (st.update now cap).1.slotsOpened = false
      unfold update
      dsimp only
      rw [hs, Bool.not_false, if_pos rfl]
      exact h
  | pollTargeted now cap =>
    have hpoll := shut_pollTargeted h hk cap
    show (Core.step st (.pollTargeted now cap)).1.slotsOpened = false
    rw [step_pollTargeted]
    exact hpoll
  | setMeta blob now =>
    show (st.setMeta blob now).slotsOpened = false
    unfold setMeta
    split
    next => exact h
    next => exact h
  | setLocalSubnets nets => exact h
  | solicit => exact h
  | replayPeers env => exact shut_offerOpened ..
  | rejudge env id =>
    show (st.rejudge env id).slotsOpened = false
    unfold rejudge
    split
    next => exact shut_offerOpened ..
    next => exact shut_offerOpened ..
  | refetchUnmatched check => exact (shut_refetchUnmatched st check).trans h
  | migrate maxPeers metaCap hlt => exact shut_migrate h maxPeers metaCap hlt
  | leave cap => exact h

end Core

/-! ## Every run -/

/-- A driver that sleeps until the due time misses nothing, in every state of a run whose polls
let no promised slot go. In any state it misses nothing exactly when no slot stands open or
the core is due now. -/
theorem sleeps_runs (cfg : Config) (st : Core) (es : List Event) (h : Core.init cfg = some st) :
    (Along (fun st e => (Core.step st e).1) Core.Holds st es →
        ∀ fs, fs <+: es → (st.runs fs).Sleeps) ∧
      ∀ fs, fs <+: es →
        ((st.runs fs).Sleeps ↔ (st.runs fs).slotsOpened = false ∨ (st.runs fs).nextDue = 0) := by
  refine ⟨fun hes fs hfs => ?_, fun fs _ => Core.sleeps_iff _⟩
  have hopen : st.slotsOpened = false := by
    unfold Core.init at h
    split at h
    next => cases h
    next =>
      obtain ⟨records, -, rfl⟩ := Option.map_eq_some_iff.mp h
      rfl
  obtain ⟨gs, rfl⟩ := hfs
  have hshut := run_invariant_along (fun st : Core => st.slotsOpened = false)
    (fun s e hs hk => Core.shut_step hs e hk) fs st hopen hes.left
  exact (Core.sleeps_iff _).mpr (Or.inl hshut)

/-- A node with one slot and room to hear of three peers. -/
def crowded : Config := { lone 1 with maxRecords := 3, interval := 5000000 }

/-- The peer of a tag announces itself, or says BYE. -/
def speaks (tag : UInt8) (flags now : Nat) : Event :=
  .datagram {} (some ⟨[10, 0, 0, tag], 7⟩)
    (encodeBytes { flags := flags, uuid := List.replicate 16 tag }) now

/-- Peer 2 holds the one slot, and 3 and 4 wait for it. Peer 2 leaves, the slot is promised to 3,
and 3 answers none of the four fetches. -/
def promised : List Event :=
  [.update 1 2000, speaks 2 0 2, speaks 3 0 3, speaks 4 0 4, speaks 2 flagBye 5,
    .pollTargeted 5 2000, .pollTargeted 250005 2000, .update 300001 2000,
    .pollTargeted 500005 2000, .update 600001 2000, .pollTargeted 750005 2000]

/-- Until the fourth fetch no poll lets the promised slot go. -/
theorem sleeps_runs_crowded : ∃ st, Core.init crowded = some st ∧
    ∀ fs, fs <+: promised.take 10 → (st.runs fs).Sleeps := by
  obtain ⟨st, hst⟩ : ∃ st, Core.init crowded = some st := ⟨_, rfl⟩
  have hrun : (Core.init crowded).all fun st =>
      Along (fun st e => (Core.step st e).1) Core.Holds st (promised.take 10) := by decide +kernel
  rw [hst, Option.all_some, decide_eq_true_iff] at hrun
  exact ⟨st, hst, (sleeps_runs crowded st (promised.take 10) hst).1 hrun⟩

/-- The slot stands open and is offered to 4 by no deadline: the update before the due time does
more than set the clock. -/
theorem promise_let_go : ¬ ∀ (cfg : Config) (st : Core) (es : List Event),
    Core.init cfg = some st → (st.runs es).Sleeps := by
  intro h
  obtain ⟨st, hst⟩ : ∃ st, Core.init crowded = some st := ⟨_, rfl⟩
  have hrun : (Core.init crowded).all fun st =>
      (st.runs promised).slotsOpened && (st.runs promised).nextDue = 1250001 := by decide +kernel
  rw [hst, Option.all_some, Bool.and_eq_true, decide_eq_true_iff] at hrun
  rcases (Core.sleeps_iff _).mp (h crowded st promised hst) with hshut | hdue
  · exact absurd (hshut.symm.trans hrun.1) Bool.false_ne_true
  · exact absurd (hdue.symm.trans hrun.2) (by decide)

end Rant.Discovery
